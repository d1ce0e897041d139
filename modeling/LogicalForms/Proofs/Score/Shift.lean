import LogicalForms.Proofs.Score.LogOrder

/-!
# Logarithmic sums without overflow

A logarithmic sum takes the largest score off every score before it applies the exponential
(`LogReal.exponents`), and adds the largest score again to the logarithm of what comes out
(`LogReal.shiftedMass`).  That does not change the sum, so parts of a list can be summed first
(`LogReal.logSumExp_append`).  And it keeps the numbers in between small: no exponent is above zero
and one of them is zero, so that the mass is between one and the number of scores.

How the exponential and the logarithm behave on other numbers does not matter
(`LogReal.logSumExp_of_agreesUpTo`).
-/

namespace LogicalForms

namespace LogReal

variable [ExpLog] {xs : List LogReal}

/-! ### Laws of logarithmic sums -/

/-- **Without mass the sum is −∞**, and only then. -/
theorem logSumExp_eq_bot_iff : logSumExp xs = ⊥ ↔ ∀ x ∈ xs, x = ⊥ := by
  constructor
  · intro h x hx
    have hsum : (xs.map mass).sum = 0 := by rw [← mass_logSumExp, h, mass_bot]
    have hnonneg : ∀ y ∈ xs.map mass, 0 ≤ y := by simpa using fun y _ => mass_nonneg y
    have hle : mass x ≤ 0 := hsum ▸ List.single_le_sum hnonneg _ (List.mem_map_of_mem hx)
    by_contra hne
    exact absurd (mass_pos_iff.2 hne) (not_lt.2 hle)
  · intro h
    apply mass_injective
    rw [mass_logSumExp, mass_bot]
    refine List.sum_eq_zero fun y hy => ?_
    obtain ⟨x, hx, rfl⟩ := List.mem_map.1 hy
    rw [h x hx, mass_bot]

/-- **Parts of a list can be summed first.** -/
theorem logSumExp_append (xs ys : List LogReal) :
    logSumExp (xs ++ ys) = logAddExp (logSumExp xs) (logSumExp ys) := by
  apply mass_injective
  rw [mass_logAddExp, mass_logSumExp, mass_logSumExp, mass_logSumExp, List.map_append,
    List.sum_append]

theorem logAddExp_eq_logSumExp (x y : LogReal) : logAddExp x y = logSumExp [x, y] := by
  apply mass_injective
  rw [mass_logAddExp, mass_logSumExp]
  simp

/-! ### What is exponentiated -/

/-- The scores with the largest one taken off. -/
noncomputable def exponents (xs : List LogReal) : List LogReal := xs.map fun x => x - largest xs

/-- The mass of the exponents. -/
noncomputable def shiftedMass (xs : List LogReal) : ℝ := ((exponents xs).map mass).sum

theorem largest_ne_bot_iff : largest xs ≠ ⊥ ↔ ∃ x ∈ xs, x ≠ ⊥ := by
  rw [ne_eq, ← le_bot_iff, largest_le_iff]
  simp

omit [ExpLog] in
theorem sub_le_zero {x y : LogReal} (h : x ≤ y) : x - y ≤ 0 := by
  cases x using WithBot.recBotCoe with
  | bot => exact bot_le
  | coe x =>
    cases y using WithBot.recBotCoe with
    | bot => exact absurd (le_bot_iff.1 h) WithBot.coe_ne_bot
    | coe y => exact WithBot.coe_le_coe.2 (sub_nonpos.2 (WithBot.coe_le_coe.1 h))

/-- **No exponent is above zero.** -/
theorem exponents_nonpos : ∀ e ∈ exponents xs, e ≤ 0 := by
  intro e he
  obtain ⟨x, hx, rfl⟩ := List.mem_map.1 he
  exact sub_le_zero (le_largest hx)

/-- **One exponent is zero**, that of the largest score. -/
theorem zero_mem_exponents (h : largest xs ≠ ⊥) : 0 ∈ exponents xs := by
  obtain ⟨t, ht⟩ := WithBot.ne_bot_iff_exists.1 h
  have hxs : xs ≠ [] := by
    rintro rfl
    exact h rfl
  refine List.mem_map.2 ⟨largest xs, largest_mem hxs, ?_⟩
  rw [← ht, ← coe_sub, sub_self]
  rfl

theorem one_le_shiftedMass (h : largest xs ≠ ⊥) : 1 ≤ shiftedMass xs := by
  have hnonneg : ∀ y ∈ (exponents xs).map mass, 0 ≤ y := by simpa using fun y _ => mass_nonneg y
  have hone : 1 ∈ (exponents xs).map mass :=
    List.mem_map.2 ⟨0, zero_mem_exponents h, mass_zero⟩
  exact List.single_le_sum hnonneg _ hone

/-- The sum is that of the exponents, with the largest score added again. -/
theorem logSumExp_eq_largest_add (h : largest xs ≠ ⊥) :
    logSumExp xs =
      largest xs + LogScale.log (total ((exponents xs).map LogScale.exp)) := by
  rw [logSumExp, if_neg (by simpa using h), exponents, List.map_map]
  rfl

theorem total_exponents (xs : List LogReal) :
    total ((exponents xs).map LogScale.exp) = ((shiftedMass xs : ℝ) : LogReal) := by
  rw [shiftedMass, ← total_coe, List.map_map]
  rfl

section Increasing

variable [ExpLog.Increasing]

theorem shiftedMass_le_length (xs : List LogReal) : shiftedMass xs ≤ xs.length := by
  have hone : ∀ y ∈ (exponents xs).map mass, y ≤ 1 := by
    intro y hy
    obtain ⟨e, he, rfl⟩ := List.mem_map.1 hy
    exact mass_zero ▸ mass_le_mass_iff.2 (exponents_nonpos e he)
  calc shiftedMass xs
      ≤ ((exponents xs).map mass).length • (1 : ℝ) := List.sum_le_card_nsmul _ _ hone
    _ = xs.length := by simp [exponents]

/-- The scale has −∞ where it belongs, its exponential is exact up to zero, and its logarithm is
exact between one and `n`.  Nothing is known of them on other numbers. -/
structure AgreesUpTo (S : LogScale LogReal) (n : ℕ) : Prop where
  impossible_iff : ∀ x, S.impossible x = true ↔ x = ⊥
  negInf_eq : S.negInf = ⊥
  exp_eq : ∀ x ≤ 0, S.exp x = ((mass x : ℝ) : LogReal)
  log_eq : ∀ y : ℝ, 1 ≤ y → y ≤ n → S.log y = ofMass y

/-- **A logarithmic sum looks at nothing else** than the exponential up to zero and the logarithm
between one and the number of scores. -/
theorem logSumExp_of_agreesUpTo {S : LogScale LogReal} (hS : AgreesUpTo S xs.length) :
    @logSumExp LogReal _ _ _ S _ _ _ xs = @logSumExp LogReal _ _ _ instLogScale _ _ _ xs := by
  set top := @largest LogReal _ _ _ instLogScale xs
  have hlargest : @largest LogReal _ _ _ S xs = top := by
    rw [@largest.eq_def LogReal _ _ _ S, hS.negInf_eq]
    rfl
  rw [@logSumExp.eq_def LogReal _ _ _ S, hlargest]
  by_cases hbot : top = ⊥
  · rw [if_pos ((hS.impossible_iff _).2 hbot), hS.negInf_eq, eq_comm, logSumExp_eq_bot_iff]
    exact fun x hx => le_bot_iff.1 ((le_largest hx).trans_eq hbot)
  · have hexp : (xs.map fun x => S.exp (x - top)) =
        ((exponents xs).map mass).map fun y : ℝ => (y : LogReal) := by
      rw [exponents, List.map_map, List.map_map]
      refine List.map_congr_left fun x hx => hS.exp_eq _ ?_
      exact exponents_nonpos _ (List.mem_map_of_mem hx)
    rw [if_neg (fun h => hbot ((hS.impossible_iff _).1 h)), hexp, total_coe, ← shiftedMass,
      hS.log_eq _ (one_le_shiftedMass hbot) (shiftedMass_le_length xs),
      logSumExp_eq_largest_add hbot, total_exponents]
    rfl

/-- **A logarithmic sum is the logarithm of the sum of the masses.**  So it is −∞ if there is no
mass, it can be taken part by part and in any order, and the sum of two is that of a list of two.

When there is mass, the exponential is only applied to exponents that are not above zero, and the
logarithm to a number between one and the number of scores; a scale that is exact there gives the
exact sum, whatever it does elsewhere.  The sum is then at least the largest score, and exceeds it
by the logarithm of the number of scores at most. -/
theorem logSumExp_stable (xs : List LogReal) :
    mass (logSumExp xs) = (xs.map mass).sum ∧
      (logSumExp xs = ⊥ ↔ ∀ x ∈ xs, x = ⊥) ∧
      (∀ ys, logSumExp (xs ++ ys) = logAddExp (logSumExp xs) (logSumExp ys)) ∧
      (∀ x y : LogReal, logAddExp x y = logSumExp [x, y]) ∧
      (∀ ys, xs.Perm ys → logSumExp xs = logSumExp ys) ∧
      ((∃ x ∈ xs, x ≠ ⊥) →
        let summed := total ((exponents xs).map LogScale.exp)
        logSumExp xs = largest xs + LogScale.log summed ∧
          (∀ e ∈ exponents xs, e ≤ 0) ∧ 1 ≤ summed ∧ summed ≤ ((xs.length : ℝ) : LogReal) ∧
          largest xs ∈ xs ∧ (∀ x ∈ xs, x ≤ largest xs) ∧ largest xs ≤ logSumExp xs ∧
          logSumExp xs ≤ largest xs + LogScale.log ((xs.length : ℝ) : LogReal)) ∧
      ∀ S : LogScale LogReal, AgreesUpTo S xs.length →
        mass (@logSumExp LogReal _ _ _ S _ _ _ xs) = (xs.map mass).sum := by
  refine ⟨mass_logSumExp xs, logSumExp_eq_bot_iff, logSumExp_append xs, logAddExp_eq_logSumExp,
    fun ys => logSumExp_perm, fun hfinite => ?_, fun S hS => ?_⟩
  · have htop : largest xs ≠ ⊥ := largest_ne_bot_iff.2 hfinite
    have hne : xs ≠ [] := fun h => by simp [h] at hfinite
    refine ⟨logSumExp_eq_largest_add htop, exponents_nonpos, ?_, ?_, largest_mem hne,
      fun x => le_largest, le_logSumExp (largest_mem hne), logSumExp_le fun x => le_largest⟩
    · rw [total_exponents]
      exact WithBot.coe_le_coe.2 (one_le_shiftedMass htop)
    · rw [total_exponents]
      exact WithBot.coe_le_coe.2 (shiftedMass_le_length xs)
  · rw [logSumExp_of_agreesUpTo hS, mass_logSumExp]

end Increasing

/-- A scale whose exponential is exact up to zero only. -/
noncomputable abbrev saturating : LogScale LogReal where
  impossible := (@instLogScale ExpLog.standard).impossible
  lowest := (@instLogScale ExpLog.standard).lowest
  negInf := ⊥
  exp x := if x ≤ 0 then ((@mass ExpLog.standard x : ℝ) : LogReal) else 0
  log := (@instLogScale ExpLog.standard).log

omit [ExpLog] in
theorem logSumExp_stable_saturating :
    let _ := ExpLog.standard
    let xs : List LogReal := [((1000 : ℝ) : LogReal), ⊥, ((1000 : ℝ) : LogReal)]
    (∃ x ∈ xs, x ≠ ⊥) ∧ AgreesUpTo saturating xs.length ∧
      saturating.exp ((1000 : ℝ) : LogReal) ≠ LogScale.exp ((1000 : ℝ) : LogReal) ∧
      mass (@logSumExp LogReal _ _ _ saturating _ _ _ xs) = (xs.map mass).sum ∧
      largest xs ≤ logSumExp xs ∧
      logSumExp xs ≤ largest xs + LogScale.log ((xs.length : ℝ) : LogReal) := by
  intro _ xs
  have := ExpLog.increasing_standard
  have hfinite : ∃ x ∈ xs, x ≠ ⊥ := ⟨_, List.mem_cons_self, WithBot.coe_ne_bot⟩
  have hagrees : AgreesUpTo saturating xs.length :=
    ⟨fun x => impossible_iff, rfl, fun x hx => if_pos hx, fun y _ _ => rfl⟩
  obtain ⟨-, -, -, -, -, hbounds, hscales⟩ := logSumExp_stable xs
  obtain ⟨-, -, -, -, -, -, hle, hge⟩ := hbounds hfinite
  have hbig : ¬((1000 : ℝ) : LogReal) ≤ 0 := fun h =>
    absurd (WithBot.coe_le_coe.1 h) (by norm_num)
  have hsaturated : saturating.exp ((1000 : ℝ) : LogReal) = ((0 : ℝ) : LogReal) := if_neg hbig
  refine ⟨hfinite, hagrees, fun h => ?_, hscales saturating hagrees, hle, hge⟩
  rw [hsaturated, exp_eq] at h
  exact (mass_pos_iff.2 WithBot.coe_ne_bot).ne (WithBot.coe_injective h)

end LogReal

end LogicalForms
