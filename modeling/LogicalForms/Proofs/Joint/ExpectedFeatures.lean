import LogicalForms.Proofs.Features.Mass
import LogicalForms.Proofs.Joint.Grouping
import Mathlib.Algebra.BigOperators.Fin
import Mathlib.Algebra.BigOperators.Ring.Finset

/-!
# Expected features as a sum over pairs

The expected features of a joint output give each key the sum, over the accepted pairs, of the mass
of the pair times the weights that the derivation and the evaluation have for the key
(`Joint.massAt_expectedFeatures`).

The outside score of a logical form counts only the evaluations of one derivation.  When the
derivations of a logical form are paired with the same evaluations, it is the mass of the
evaluations of each of them (`Joint.mass_outside`), and the sum over the derivations becomes a sum
over the pairs (`JointPair.sum_bySource`).
-/

namespace LogicalForms

open LogReal

variable [ExpLog] {R : Type}

/-! ### The base output -/

namespace ParserOutput

theorem massAt_logExpectedFeatures (o : ParserOutput LogReal) (outside : Term → LogReal)
    (h : ∀ d ∈ o.derivations, d.features.Nonneg) (k : FeatureKey) :
    (o.logExpectedFeatures outside).massAt k =
      (o.derivations.map fun d =>
        mass (outside d.semantics) * mass d.logInside * d.features.value k).sum := by
  have key : ∀ (ds : List (Derivation LogReal)) (v : FeatureVector LogReal),
      (∀ d ∈ ds, d.features.Nonneg) →
      (ds.foldl (fun v d =>
        if ScoreRange.impossible (outside d.semantics) then v
        else v.addLogMass (outside d.semantics + d.logInside) d.features) v).massAt k =
      v.massAt k + (ds.map fun d =>
        mass (outside d.semantics) * mass d.logInside * d.features.value k).sum := by
    intro ds
    induction ds with
    | nil => simp
    | cons d ds ih =>
      intro v hds
      rw [List.foldl_cons, ih _ fun e he => hds e (by simp [he]), List.map_cons, List.sum_cons,
        ← add_assoc]
      congr 1
      split_ifs with himpossible
      · -- what is left out has no mass
        rw [impossible_iff.1 himpossible, mass_bot, zero_mul, zero_mul, add_zero]
      · rw [FeatureVector.massAt_addLogMass (hds d (by simp)), mass_add]
  rw [logExpectedFeatures, key o.derivations ∅ h, FeatureVector.massAt_empty, zero_add]

end ParserOutput

variable {base : ParserOutput LogReal}

namespace JointPair

omit [ExpLog] in
/-- Adding up by derivation first adds up over all pairs. -/
theorem sum_bySource (ps : List (JointPair base R)) (f : JointPair base R → ℝ) :
    ∑ i : Fin base.size, ((ps.filter fun p => p.source = i).map f).sum = (ps.map f).sum := by
  induction ps with
  | nil => simp
  | cons p ps ih =>
    have hsplit : ∀ i : Fin base.size, (((p :: ps).filter fun p => p.source = i).map f).sum =
        (if p.source = i then f p else 0) + ((ps.filter fun p => p.source = i).map f).sum := by
      intro i
      by_cases h : p.source = i <;> simp [h]
    simp only [hsplit, Finset.sum_add_distrib, ih, Finset.sum_ite_eq, Finset.mem_univ, if_true,
      List.map_cons, List.sum_cons]

end JointPair

namespace Joint

/-! ### Outside scores -/

/-- The mass of a list of evaluations. -/
noncomputable def evaluationMass (es : List (Evaluation R LogReal)) : ℝ :=
  (es.map fun e => mass e.logScore).sum

theorem evaluationMass_perm {es fs : List (Evaluation R LogReal)} (h : es.Perm fs) :
    evaluationMass es = evaluationMass fs :=
  (h.map _).sum_eq

theorem mass_foldl_logSumExp (ps : List (JointPair base R)) (s : LogReal) :
    mass (ps.foldl (fun s p => logSumExp [s, p.evaluation.logScore]) s) =
      mass s + evaluationMass (ps.map JointPair.evaluation) := by
  induction ps generalizing s with
  | nil => simp [evaluationMass]
  | cons p ps ih =>
    rw [List.foldl_cons, ih, mass_logSumExp]
    simp [evaluationMass, add_assoc]

/-- **The outside score of a logical form counts the evaluations of each derivation of it.** -/
theorem mass_outside {ps : List (JointPair base R)} (h : Paired ps) (i : Fin base.size) :
    mass (outside ps (base.get i).semantics) = evaluationMass (evaluationsOf ps i) := by
  rw [outside]
  cases hfirst : ps.find? fun p => p.derivation.semantics = (base.get i).semantics with
  | none =>
    -- no derivation of the logical form is paired
    have hnone : evaluationsOf ps i = [] := by
      rw [evaluationsOf, List.map_eq_nil_iff, List.filter_eq_nil_iff]
      intro p hp hsource
      have := List.find?_eq_none.1 hfirst p hp
      rw [decide_eq_true_eq] at hsource
      simp [JointPair.derivation, hsource] at this
    rw [hnone, negInf_eq, mass_bot]
    rfl
  | some first =>
    have hsem : (base.get first.source).semantics = (base.get i).semantics := by
      have hfound := List.find?_some hfirst
      rw [decide_eq_true_eq] at hfound
      exact hfound
    calc mass ((ps.filter fun p => p.source = first.source).foldl
          (fun s p => logSumExp [s, p.evaluation.logScore]) LogScale.negInf)
      _ = evaluationMass (evaluationsOf ps first.source) := by
        rw [mass_foldl_logSumExp, negInf_eq, mass_bot, zero_add, evaluationsOf]
      _ = evaluationMass (evaluationsOf ps i) := evaluationMass_perm (h _ _ hsem)

/-! ### Pairs -/

/-- What a pair contributes to the expected features. -/
noncomputable def contribution (k : FeatureKey) (p : JointPair base R) : ℝ :=
  mass (p.derivation.logInside + p.evaluation.logScore) *
    (p.derivation.features.value k + p.evaluation.features.value k)

theorem massAt_foldl_addLogMass {ps : List (JointPair base R)}
    (h : ∀ p ∈ ps, p.evaluation.features.Nonneg) (v : FeatureVector LogReal) (k : FeatureKey) :
    (ps.foldl (fun v p =>
      v.addLogMass (p.evaluation.logScore + p.derivation.logInside) p.evaluation.features)
      v).massAt k =
      v.massAt k + (ps.map fun p => mass (p.derivation.logInside + p.evaluation.logScore) *
        p.evaluation.features.value k).sum := by
  induction ps generalizing v with
  | nil => simp
  | cons p ps ih =>
    rw [List.foldl_cons, ih fun q hq => h q (by simp [hq]),
      FeatureVector.massAt_addLogMass (h p (by simp)), List.map_cons, List.sum_cons, ← add_assoc,
      add_comm p.evaluation.logScore]

theorem massAt_base {ps : List (JointPair base R)} (hpaired : Paired ps)
    (h : ∀ d ∈ base.derivations, d.features.Nonneg) (k : FeatureKey) :
    (base.logExpectedFeatures (outside ps)).massAt k =
      (ps.map fun p => mass (p.derivation.logInside + p.evaluation.logScore) *
        p.derivation.features.value k).sum := by
  rw [ParserOutput.massAt_logExpectedFeatures base _ h k, ← base.map_get_positions, List.map_map,
    ParserOutput.positions, ← Fin.sum_univ_def, ← JointPair.sum_bySource]
  refine Finset.sum_congr rfl fun i _ => ?_
  simp only [Function.comp_apply]
  rw [mass_outside hpaired i, evaluationMass, evaluationsOf, List.map_map, mul_assoc,
    ← List.sum_map_mul_right]
  congr 1
  refine List.map_congr_left fun p hp => ?_
  have hsource : p.source = i := by
    simpa using List.of_mem_filter hp
  simp only [Function.comp_apply, JointPair.derivation, hsource, mass_add]
  ring

/-- **The expected features are a sum over the accepted pairs.**  The derivations of one logical
form have to be paired with the same evaluations, which is what execution does. -/
theorem massAt_expectedFeatures [DecidableEq R] :
    (∀ (base : ParserOutput LogReal) (b : Builder base R), Paired b.pairs →
      (∀ d ∈ base.derivations, d.features.Nonneg) →
      (∀ p ∈ b.pairs, p.evaluation.features.Nonneg) →
      ∀ (accepts : R → Bool) (k : FeatureKey),
        (b.build.logExpectedFeatures accepts).massAt k =
          ((b.pairs.filter fun p => accepts p.result).map (contribution k)).sum) ∧
    ∀ (W : Type) (base : ParserOutput LogReal) (ex : Executor (StateM W) R LogReal) (w : W),
      ∃ b : Builder base R, Paired b.pairs ∧ ((execute base ex).run w).1 = b.build := by
  refine ⟨fun base b hpaired hbase hpairs accepts k => ?_,
    fun W base ex w => exists_paired_execute base ex w⟩
  have hperm := executions_perm b accepts
  have hnonneg : ∀ p ∈ b.build.executions accepts, p.evaluation.features.Nonneg :=
    fun p hp => hpairs p (List.mem_of_mem_filter (hperm.subset hp))
  calc (b.build.logExpectedFeatures accepts).massAt k
    _ = ((b.build.executions accepts).map fun p =>
          mass (p.derivation.logInside + p.evaluation.logScore) *
            p.derivation.features.value k).sum +
        ((b.build.executions accepts).map fun p =>
          mass (p.derivation.logInside + p.evaluation.logScore) *
            p.evaluation.features.value k).sum := by
      rw [logExpectedFeatures, massAt_foldl_addLogMass hnonneg,
        massAt_base (hpaired.executions accepts) hbase]
    _ = ((b.build.executions accepts).map (contribution k)).sum := by
      rw [← List.sum_map_add]
      congr 1
      exact List.map_congr_left fun p _ => (mul_add _ _ _).symm
    _ = ((b.pairs.filter fun p => accepts p.result).map (contribution k)).sum :=
      (hperm.map _).sum_eq

/-- A vector with one entry. -/
noncomputable def singleFeature (key : String) (x : ℝ) : FeatureVector LogReal :=
  ⟨[(⟨key⟩, x)], List.pairwise_singleton _ _⟩

omit [ExpLog] in
theorem nonneg_singleFeature (key : String) {x : ℝ} (h : 0 ≤ x) : (singleFeature key x).Nonneg := by
  intro e he
  rw [List.mem_singleton.1 he]
  exact WithBot.coe_le_coe.2 h

omit [ExpLog] in
theorem value_singleFeature (key : String) (x : ℝ) (k : FeatureKey) :
    (singleFeature key x).value k = if k = ⟨key⟩ then x else 0 := by
  simp only [FeatureVector.value, FeatureVector.weight, FeatureVector.get?, singleFeature,
    FeatureVector.lookup, eq_comm (a := k)]
  split_ifs <;> rfl

/-- Two readings with one logical form. -/
noncomputable def twoReadings : ParserOutput LogReal where
  derivations :=
    [.single (.const ⟨"boston", .atom "e"⟩) (-1 : ℝ) (singleFeature "p" 1),
      .single (.const ⟨"boston", .atom "e"⟩) (-2 : ℝ) (singleFeature "p" 2)]

/-- The position of the first of them. -/
def firstReading : Fin twoReadings.size := ⟨0, Nat.zero_lt_two⟩

/-- The position of the second. -/
def secondReading : Fin twoReadings.size := ⟨1, Nat.one_lt_two⟩

/-- A result that is accepted below. -/
noncomputable def evaluationA : Evaluation String LogReal :=
  ⟨"a", ((-1 / 2 : ℝ) : LogReal), singleFeature "x" 1⟩

/-- A result that is not. -/
noncomputable def evaluationB : Evaluation String LogReal := ⟨"b", ((-1 : ℝ) : LogReal), ∅⟩

/-- Both readings with both evaluations, in different orders. -/
noncomputable def crossedPairs : List (JointPair twoReadings String) :=
  [⟨firstReading, evaluationA⟩, ⟨secondReading, evaluationB⟩, ⟨secondReading, evaluationA⟩,
    ⟨firstReading, evaluationB⟩]

omit [ExpLog] in
theorem paired_crossedPairs : Paired crossedPairs := by
  have hall : ∀ i, (evaluationsOf crossedPairs i).Perm [evaluationA, evaluationB] := by
    rintro ⟨n, hn⟩
    match n, hn with
    | 0, _ => exact .refl _
    | 1, _ => exact .swap _ _ _
  exact fun i j _ => (hall i).trans (hall j).symm

/-- The pairs of the accepted result, grouped. -/
noncomputable def crossed : Builder twoReadings String := ⟨crossedPairs, true⟩

omit [ExpLog] in
theorem massAt_expectedFeatures_crossed :
    let _ := ExpLog.standard
    Paired crossed.pairs ∧
      (crossed.build.logExpectedFeatures (· = "a")).massAt ⟨"p"⟩ =
        Real.exp (-1 + -1 / 2) * 1 + Real.exp (-2 + -1 / 2) * 2 := by
  intro _
  refine ⟨paired_crossedPairs, ?_⟩
  have hbase : ∀ d ∈ twoReadings.derivations, d.features.Nonneg := by
    simp only [twoReadings, List.mem_cons, List.not_mem_nil, or_false, forall_eq_or_imp, forall_eq]
    exact ⟨nonneg_singleFeature "p" zero_le_one, nonneg_singleFeature "p" zero_le_two⟩
  have hpairs : ∀ p ∈ crossed.pairs, p.evaluation.features.Nonneg := by
    have hA : evaluationA.features.Nonneg := nonneg_singleFeature "x" zero_le_one
    have hB : evaluationB.features.Nonneg := fun e he => absurd he (List.not_mem_nil)
    simp only [crossed, crossedPairs, List.mem_cons, List.not_mem_nil, or_false, forall_eq_or_imp,
      forall_eq]
    exact ⟨hA, hB, hA, hB⟩
  rw [massAt_expectedFeatures.1 twoReadings crossed paired_crossedPairs hbase hpairs]
  have hx : (⟨"p"⟩ : FeatureKey) ≠ ⟨"x"⟩ := by decide
  -- one pair of each reading has the accepted result
  change contribution ⟨"p"⟩ (⟨firstReading, evaluationA⟩ : JointPair twoReadings String) +
    (contribution ⟨"p"⟩ (⟨secondReading, evaluationA⟩ : JointPair twoReadings String) + 0) = _
  have hA : evaluationA.features.value ⟨"p"⟩ = 0 := by
    rw [evaluationA, value_singleFeature, if_neg hx]
  have hi : (singleFeature "p" 1).value ⟨"p"⟩ = 1 := by
    rw [value_singleFeature, if_pos rfl]
  have hj : (singleFeature "p" 2).value ⟨"p"⟩ = 2 := by
    rw [value_singleFeature, if_pos rfl]
  rw [contribution, contribution, hA, add_zero, add_zero, add_zero]
  exact congrArg₂ (· + ·) (congrArg _ hi) (congrArg _ hj)

end Joint

end LogicalForms
