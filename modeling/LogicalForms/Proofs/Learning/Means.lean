import LogicalForms.Proofs.Features.Inner
import LogicalForms.Proofs.Learning.Accounts
import Mathlib.Tactic.Ring

/-!
# Differences of means

An update is the mean of the features of the violating valid derivations less the mean of those of
the violating invalid ones, without the keys at which the two differ by noise only: the `gapVector`
of both (`get?_gapVector`, `constructUpdate_eq`).

So an update need not move the weights.  Which derivations violate the margin is decided pair by
pair, while the means of both sides may be the same (`parameterUpdate_level`).  What an update does
is said by `parameterUpdate_moves`.
-/

namespace LogicalForms

variable {S : Type}

/-! ### Means -/

/-- The mean weight of a feature. -/
def meanWeight (ds : List (Derivation ℚ)) (k : FeatureKey) : ℚ :=
  (ds.map fun d => d.features.weight k).sum / ds.length

/-- **Adding a mean adds mean weights.** -/
theorem weight_addMean (v : FeatureVector ℚ) (factor : ℚ) (ds : List (Derivation ℚ))
    (k : FeatureKey) :
    (addMean v factor ds).weight k = v.weight k + factor * meanWeight ds k := by
  rw [addMean, FeatureVector.weight_foldl_addTimes, meanWeight]
  ring

/-! ### Updates -/

/-- By how much the means of two lists of derivations differ at a feature. -/
def meanGap (valid invalid : List (Derivation ℚ)) (k : FeatureKey) : ℚ :=
  meanWeight valid k - meanWeight invalid k

/-- The difference of the means without its noise. -/
def gapVector (valid invalid : List (Derivation ℚ)) : FeatureVector ℚ :=
  (addMean (addMean ∅ 1 valid) (-1) invalid).dropNoise

/-- **The features where the means differ by what is not noise are stored**, and no others. -/
theorem get?_gapVector (valid invalid : List (Derivation ℚ)) (k : FeatureKey) :
    (gapVector valid invalid).get? k =
      if FeatureVector.noise ≤ |meanGap valid invalid k| then some (meanGap valid invalid k)
      else none := by
  have hgap : (addMean (addMean ∅ 1 valid) (-1) invalid).weight k = meanGap valid invalid k := by
    have hempty : (∅ : FeatureVector ℚ).weight k = 0 := rfl
    rw [weight_addMean, weight_addMean, hempty, meanGap]
    ring
  rw [gapVector, FeatureVector.get?_dropNoise, hgap]

theorem constructUpdate_eq (model : Model S ℚ) (valid invalid : List (Derivation ℚ)) :
    constructUpdate model valid invalid =
      if valid = [] ∨ invalid = [] then .error .emptyViolatingSet
      else if model.admitsUpdate (gapVector valid invalid) then .ok (gapVector valid invalid)
      else .error (.invalidUpdate (gapVector valid invalid)) := by
  have hempty : (valid.isEmpty || invalid.isEmpty) = true ↔ valid = [] ∨ invalid = [] := by
    rw [Bool.or_eq_true, List.isEmpty_iff, List.isEmpty_iff]
  unfold constructUpdate
  by_cases h : valid = [] ∨ invalid = []
  · rw [if_pos h, if_pos (hempty.2 h)]
  · rw [if_neg h, if_neg (mt hempty.1 h)]
    rfl

theorem eq_gapVector_of_constructUpdate {model : Model S ℚ} {valid invalid : List (Derivation ℚ)}
    {update : FeatureVector ℚ} (h : constructUpdate model valid invalid = .ok update) :
    update = gapVector valid invalid := by
  rw [constructUpdate_eq] at h
  split_ifs at h
  exact (Except.ok.inj h).symm

/-- **An update is the difference of the means without noise.** -/
theorem weight_of_constructUpdate_eq_ok {model : Model S ℚ} {valid invalid : List (Derivation ℚ)}
    {update : FeatureVector ℚ} (h : constructUpdate model valid invalid = .ok update)
    (k : FeatureKey) :
    update.weight k =
      if FeatureVector.noise ≤ |meanGap valid invalid k| then meanGap valid invalid k else 0 := by
  rw [eq_gapVector_of_constructUpdate h, FeatureVector.weight, get?_gapVector]
  split_ifs <;> rfl

section

variable [ScoreRange ℚ] {params : Params ℚ} {accepts : Term → Bool} {real good : ParserOutput ℚ}
  {model : Model S ℚ} {update : FeatureVector ℚ}

/-- The difference of the means of the derivations that violate the margin. -/
def violatingGap (params : Params ℚ) (accepts : Term → Bool) (real good : ParserOutput ℚ)
    (theta : FeatureVector ℚ) (k : FeatureKey) : ℚ :=
  let (valid, invalid) := violating params accepts real good theta
  meanGap valid invalid k

theorem weight_of_proposedUpdate_eq_some
    (h : proposedUpdate params accepts real good model = .ok (some update)) (k : FeatureKey) :
    update.weight k =
      if FeatureVector.noise ≤ |violatingGap params accepts real good model.theta k| then
        violatingGap params accepts real good model.theta k else 0 :=
  weight_of_constructUpdate_eq_ok (constructUpdate_of_proposedUpdate_eq_some h) k

/-- **What an update moves.**  An update that is made is recorded.  It adds the difference of the
means of the violating derivations without its noise, so it moves a weight just if the means differ
at some feature by what is not noise.  Where no update is made, the model stays as it is and nothing
is recorded. -/
theorem parameterUpdate_moves (params : Params ℚ) (accepts : Term → Bool) (visit : Visit)
    (real good : ParserOutput ℚ) (p : Progress S ℚ) :
    let gap := violatingGap params accepts real good p.model.theta
    match parameterUpdate params accepts visit real good p with
    | (.ok true, p') =>
      p'.stats.triggeredUpdate = p.stats.triggeredUpdate.insert visit ∧
      (∀ k, p'.model.theta.weight k =
        p.model.theta.weight k + if FeatureVector.noise ≤ |gap k| then gap k else 0) ∧
      ((∃ k, p'.model.theta.weight k ≠ p.model.theta.weight k) ↔
        ∃ k, FeatureVector.noise ≤ |gap k|)
    | (_, p') => p'.model = p.model ∧ p'.stats.triggeredUpdate = p.stats.triggeredUpdate := by
  intro gap
  obtain ⟨recorded, q, hparse, hmodel, htriggered, -⟩ :=
    recordParse_spec params accepts visit real good p
  rw [parameterUpdate_eq, hparse]
  rcases recorded with e | ⟨⟩
  · exact ⟨hmodel, htriggered⟩
  rcases hproposed : proposedUpdate params accepts real good p.model with e | _ | update
  · exact ⟨hmodel, htriggered⟩
  · exact ⟨hmodel, htriggered⟩
  · have hweight : ∀ k, (p.model.theta.addTimes 1 update).weight k =
        p.model.theta.weight k + if FeatureVector.noise ≤ |gap k| then gap k else 0 := by
      intro k
      rw [FeatureVector.weight_addTimes, one_mul, weight_of_proposedUpdate_eq_some hproposed]
    have hmoved : ∀ k, (p.model.theta.addTimes 1 update).weight k ≠ p.model.theta.weight k ↔
        FeatureVector.noise ≤ |gap k| := by
      intro k
      rw [hweight, Ne, add_eq_left]
      split_ifs with h
      · exact iff_of_true (abs_pos.1 (FeatureVector.noise_pos.trans_le h)) h
      · exact iff_of_false (not_not.2 rfl) h
    refine ⟨?_, fun k => ?_, exists_congr fun k => ?_⟩
    · exact congrArg (VisitSet.insert · visit) htriggered
    · change (q.model.theta.addTimes 1 update).weight k = _
      rw [hmodel, hweight]
    · change (q.model.theta.addTimes 1 update).weight k ≠ _ ↔ _
      rw [hmodel, hmoved]

end

/-! ### Means on a level -/

/-- A reading with one feature. -/
def levelReading (name : String) (x : ℚ) : Derivation ℚ :=
  .single (.const ⟨name, .atom "e"⟩) 0 (.ofList [(⟨"A"⟩, x)])

/-- Two right readings and two wrong ones, with the same features. -/
def levelOutput : ParserOutput ℚ :=
  ⟨[levelReading "right" 1, levelReading "right" (-1), levelReading "wrong" 1,
    levelReading "wrong" (-1)], true⟩

/-- Every right reading violates the margin with a wrong one, but the means are the same. -/
theorem parameterUpdate_level :
    let p : Progress Bool ℚ := ⟨{}, {}⟩
    let result := parameterUpdate .standard (· == .const ⟨"right", .atom "e"⟩) ⟨0, 0⟩ levelOutput
      levelOutput p
    result.1.toOption = some true ∧ result.2.stats.triggeredUpdate = VisitSet.insert ∅ ⟨0, 0⟩ ∧
      result.2.model.theta = p.model.theta := by
  intro p result
  have hentries : result.2.model.theta.entries = [] := by decide +kernel
  refine ⟨by decide +kernel, by decide +kernel, FeatureVector.ext_get? fun k => ?_⟩
  rw [FeatureVector.get?, hentries]
  rfl

end LogicalForms
