import LogicalForms.Proofs.Features.Mass

/-!
# Accumulating masses

A vector of logarithms takes in one vector of masses after the other (`FeatureVector.accumulate`).
This comes down to single deposits: an entry adds its mass to the mass of its key, and touches no
other key (`FeatureVector.massAt_addLogAt`).

A vector without −∞ has an entry for a key exactly if the key has mass (`FeatureVector.Finite`), so
it is determined by its masses (`FeatureVector.Finite.ext_massAt`).  Deposits keep it that way, so
they may come in any order (`FeatureVector.deposit_perm`).
-/

namespace LogicalForms

namespace FeatureVector

open LogReal

/-! ### Vectors without −∞ -/

/-- No entry is −∞. -/
def Finite (v : FeatureVector LogReal) : Prop := ∀ e ∈ v.entries, e.2 ≠ ⊥

variable {v w : FeatureVector LogReal}

theorem finite_iff : v.Finite ↔ ∀ k, v.get? k ≠ some ⊥ := by
  constructor
  · exact fun h k hk => h (k, ⊥) (get?_eq_some_iff.1 hk) rfl
  · rintro h ⟨k, x⟩ he rfl
    exact h k (get?_eq_some_iff.2 he)

variable [ExpLog]

theorem Finite.get?_eq (h : v.Finite) (k : FeatureKey) :
    v.get? k = if 0 < v.massAt k then some (ofMass (v.massAt k)) else none := by
  rw [massAt]
  cases hk : v.get? k with
  | none => simp
  | some x =>
    have hx : x ≠ ⊥ := fun hbot => finite_iff.1 h k (hbot ▸ hk)
    rw [Option.elim_some, if_pos (mass_pos_iff.2 hx), ofMass_mass]

theorem Finite.contains_iff (h : v.Finite) (k : FeatureKey) :
    v.contains k = true ↔ 0 < v.massAt k := by
  rw [contains, h.get?_eq]
  split_ifs with hpos <;> simp [hpos]

/-- **Vectors without −∞ are determined by their masses.** -/
theorem Finite.ext_massAt (hv : v.Finite) (hw : w.Finite) (h : ∀ k, v.massAt k = w.massAt k) :
    v = w :=
  ext_get? fun k => by rw [hv.get?_eq, hw.get?_eq, h]

/-! ### Deposits -/

theorem massAt_addLogAt (v : FeatureVector LogReal) (j : FeatureKey) (x : LogReal)
    (k : FeatureKey) :
    (v.addLogAt j x).massAt k = v.massAt k + if k = j then mass x else 0 := by
  rw [massAt, get?_addLogAt]
  by_cases hk : k = j
  · subst hk
    rw [if_pos rfl, if_pos rfl]
    split_ifs with himpossible
    · rw [impossible_iff.1 himpossible, mass_bot, add_zero, massAt]
    · rw [Option.elim_some, mass_logAddExp, mass_getD]
  · rw [if_neg hk, if_neg hk, add_zero, massAt]

theorem Finite.addLogAt (h : v.Finite) (j : FeatureKey) (x : LogReal) :
    (v.addLogAt j x).Finite := by
  rw [finite_iff] at h ⊢
  intro k
  rw [get?_addLogAt]
  split_ifs with hk himpossible
  · exact h j
  · -- what is added has mass, so the sum has
    have hx : 0 < mass x := mass_pos_iff.2 fun hbot => himpossible (impossible_iff.2 hbot)
    intro hbot
    have hsum := congrArg mass (Option.some.inj hbot)
    rw [mass_logAddExp, mass_bot] at hsum
    linarith [mass_nonneg ((v.get? j).getD LogScale.negInf)]
  · exact h k

/-- Adds masses to keys, one after the other. -/
noncomputable def deposit (v : FeatureVector LogReal) (ds : List (FeatureKey × LogReal)) :
    FeatureVector LogReal :=
  ds.foldl (fun v d => v.addLogAt d.1 d.2) v

theorem massAt_deposit (v : FeatureVector LogReal) (ds : List (FeatureKey × LogReal))
    (k : FeatureKey) :
    (v.deposit ds).massAt k =
      v.massAt k + (ds.map fun d => if k = d.1 then mass d.2 else 0).sum := by
  induction ds generalizing v with
  | nil => simp [deposit]
  | cons d ds ih =>
    rw [deposit, List.foldl_cons, ← deposit, ih, massAt_addLogAt, List.map_cons, List.sum_cons,
      add_assoc]

theorem Finite.deposit (h : v.Finite) (ds : List (FeatureKey × LogReal)) :
    (v.deposit ds).Finite := by
  induction ds generalizing v with
  | nil => exact h
  | cons d ds ih => exact ih (h.addLogAt d.1 d.2)

/-- **Deposits may come in any order.** -/
theorem deposit_perm (h : v.Finite) {ds ds' : List (FeatureKey × LogReal)} (hds : ds.Perm ds') :
    v.deposit ds = v.deposit ds' := by
  refine (h.deposit ds).ext_massAt (h.deposit ds') fun k => ?_
  rw [massAt_deposit, massAt_deposit, (hds.map _).sum_eq]

/-! ### Vectors of masses -/

/-- The deposits that a vector of masses stands for, each times the mass with logarithm `x`. -/
noncomputable def deposits (x : LogReal) (w : FeatureVector LogReal) :
    List (FeatureKey × LogReal) :=
  w.entries.map fun e => (e.1, x + LogScale.log e.2)

/-- Adds vectors of masses, each with the logarithm of its factor. -/
noncomputable def accumulate (v : FeatureVector LogReal)
    (cs : List (LogReal × FeatureVector LogReal)) : FeatureVector LogReal :=
  cs.foldl (fun v c => v.addLogMass c.1 c.2) v

theorem addLogMass_eq_deposit (v : FeatureVector LogReal) (x : LogReal)
    (w : FeatureVector LogReal) : v.addLogMass x w = v.deposit (deposits x w) := by
  rw [addLogMass, deposit, deposits, List.foldl_map]

theorem accumulate_eq_deposit (v : FeatureVector LogReal)
    (cs : List (LogReal × FeatureVector LogReal)) :
    v.accumulate cs = v.deposit (cs.flatMap fun c => deposits c.1 c.2) := by
  induction cs generalizing v with
  | nil => rfl
  | cons c cs ih =>
    rw [accumulate, List.foldl_cons, ← accumulate, ih, addLogMass_eq_deposit, List.flatMap_cons,
      deposit, deposit, deposit, List.foldl_append]

theorem massAt_accumulate {cs : List (LogReal × FeatureVector LogReal)}
    (h : ∀ c ∈ cs, c.2.Nonneg) (v : FeatureVector LogReal) (k : FeatureKey) :
    (v.accumulate cs).massAt k =
      v.massAt k + (cs.map fun c => mass c.1 * c.2.value k).sum := by
  induction cs generalizing v with
  | nil => simp [accumulate]
  | cons c cs ih =>
    obtain ⟨hc, hcs⟩ := List.forall_mem_cons.1 h
    rw [accumulate, List.foldl_cons, ← accumulate, ih hcs, massAt_addLogMass hc, List.map_cons,
      List.sum_cons, add_assoc]

/-- **Accumulating in log space adds masses.**  Each key gets the sum of what the vectors have for
it, each times the mass of its factor.  Keys without mass have no entry and no entry is −∞, so
neither the order of the vectors nor that of their entries matters. -/
theorem accumulate_adds_masses (hv : v.Finite) (cs : List (LogReal × FeatureVector LogReal))
    (hcs : ∀ c ∈ cs, c.2.Nonneg) :
    (∀ k, (v.accumulate cs).massAt k =
        v.massAt k + (cs.map fun c => mass c.1 * c.2.value k).sum) ∧
      (∀ k, (v.accumulate cs).contains k = true ↔
        0 < v.massAt k + (cs.map fun c => mass c.1 * c.2.value k).sum) ∧
      (v.accumulate cs).Finite ∧
      (∀ cs', cs.Perm cs' → v.accumulate cs' = v.accumulate cs) ∧
      ∀ ds, ds.Perm (cs.flatMap fun c => deposits c.1 c.2) → v.deposit ds = v.accumulate cs := by
  have hmass := massAt_accumulate hcs v
  have hfinite : (v.accumulate cs).Finite := by
    rw [accumulate_eq_deposit]
    exact hv.deposit _
  refine ⟨hmass, fun k => by rw [hfinite.contains_iff, hmass], hfinite, fun cs' hperm => ?_,
    fun ds hperm => ?_⟩
  · rw [accumulate_eq_deposit, accumulate_eq_deposit]
    exact deposit_perm hv (hperm.symm.flatMap_right _)
  · rw [accumulate_eq_deposit]
    exact deposit_perm hv hperm

/-- A mass of one. -/
noncomputable def unitMass : FeatureVector LogReal := ⟨[(⟨"a"⟩, 0)], List.pairwise_singleton _ _⟩

/-- A vector without a factor, and one that stores a zero. -/
noncomputable def countings : List (LogReal × FeatureVector LogReal) :=
  [(⊥, ⟨[(⟨"a"⟩, 1)], List.pairwise_singleton _ _⟩),
    (0, ⟨[(⟨"a"⟩, 1), (⟨"b"⟩, 0)], List.pairwise_pair.2 (by decide)⟩)]

omit [ExpLog] in
theorem accumulate_adds_masses_countings :
    let _ := ExpLog.standard
    unitMass.Finite ∧ (∀ c ∈ countings, c.2.Nonneg) ∧
      (unitMass.accumulate countings).massAt ⟨"a"⟩ = 1 + 1 ∧
      (unitMass.accumulate countings).contains ⟨"b"⟩ = false ∧
      unitMass.accumulate countings.reverse = unitMass.accumulate countings := by
  intro _
  have hfinite : unitMass.Finite := by
    intro e he
    rw [List.mem_singleton.1 he]
    exact WithBot.coe_ne_bot
  have hnonneg : ∀ c ∈ countings, c.2.Nonneg := by
    have hone : (0 : LogReal) ≤ 1 := WithBot.coe_le_coe.2 zero_le_one
    intro c hc e he
    simp only [countings, List.mem_cons, List.not_mem_nil, or_false] at hc
    rcases hc with rfl | rfl
    · rw [List.mem_singleton.1 he]
      exact hone
    · rcases List.mem_pair.1 he with rfl | rfl
      · exact hone
      · exact le_refl _
  obtain ⟨hmass, hcontains, -, hperm, -⟩ := accumulate_adds_masses hfinite countings hnonneg
  have hmassA : unitMass.massAt ⟨"a"⟩ = 1 := mass_zero
  have hsumA : (countings.map fun c => mass c.1 * c.2.value ⟨"a"⟩).sum = 1 := by
    change mass ⊥ * _ + (mass 0 * (1 : ℝ) + 0) = 1
    rw [mass_bot, mass_zero, zero_mul, zero_add, one_mul, add_zero]
  have hsumB : unitMass.massAt ⟨"b"⟩ +
      (countings.map fun c => mass c.1 * c.2.value ⟨"b"⟩).sum = 0 := by
    change (0 : ℝ) + (mass ⊥ * (0 : ℝ) + (mass 0 * (0 : ℝ) + 0)) = 0
    simp
  refine ⟨hfinite, hnonneg, ?_, ?_, hperm _ (List.reverse_perm _).symm⟩
  · rw [hmass, hmassA, hsumA]
  · rw [Bool.eq_false_iff, ne_eq, hcontains, hsumB]
    exact lt_irrefl _

end FeatureVector

end LogicalForms
