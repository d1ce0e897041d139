import LogicalForms.Proofs.Learning.Construction
import Mathlib.Algebra.BigOperators.Field

/-!
# Updates widen the gap

The gap between two lists of derivations is the difference of their mean scores (`separation`).
Scores are linear in the weights, so the gap is the inner product of the weights with the difference
of the mean features (`separation_eq_sum`), which is what an update is made of.  Thus adding the
update widens the gap by the square of its length (`separation_addUpdate`).
-/

namespace LogicalForms

variable {S : Type} {valid invalid : List (Derivation ℚ)} {update : FeatureVector ℚ}

/-- The mean score of derivations under some weights. -/
def meanScore (theta : FeatureVector ℚ) (ds : List (Derivation ℚ)) : ℚ :=
  (ds.map fun d => theta.dot d.features).sum / ds.length

/-- By how much the valid derivations outscore the invalid ones in the mean. -/
def separation (theta : FeatureVector ℚ) (valid invalid : List (Derivation ℚ)) : ℚ :=
  meanScore theta valid - meanScore theta invalid

/-! ### Mean scores are linear -/

theorem meanScore_addTimes (theta v : FeatureVector ℚ) (factor : ℚ) (ds : List (Derivation ℚ)) :
    meanScore (theta.addTimes factor v) ds = meanScore theta ds + factor * meanScore v ds := by
  have hsum : (ds.map fun d => (theta.addTimes factor v).dot d.features).sum =
      (ds.map fun d => theta.dot d.features).sum +
        factor * (ds.map fun d => v.dot d.features).sum := by
    simp only [FeatureVector.dot_addTimes, List.sum_map_add, List.sum_map_mul_left]
  rw [meanScore, meanScore, meanScore, hsum]
  ring

theorem separation_addTimes (theta v : FeatureVector ℚ) (factor : ℚ)
    (valid invalid : List (Derivation ℚ)) :
    separation (theta.addTimes factor v) valid invalid =
      separation theta valid invalid + factor * separation v valid invalid := by
  rw [separation, separation, separation, meanScore_addTimes, meanScore_addTimes]
  ring

/-- The mean score is the score of the mean features. -/
theorem meanScore_eq_sum (theta : FeatureVector ℚ) (ds : List (Derivation ℚ)) :
    meanScore theta ds = ∑ k ∈ theta.keySet, theta.weight k * meanWeight ds k := by
  have hsum : (ds.map fun d => theta.dot d.features).sum =
      ∑ k ∈ theta.keySet, theta.weight k * (ds.map fun d => d.features.weight k).sum := by
    induction ds with
    | nil => simp
    | cons d ds ih =>
      simp only [List.map_cons, List.sum_cons, mul_add, Finset.sum_add_distrib, ← ih]
      rw [FeatureVector.dot_eq_sum subset_rfl]
  rw [meanScore, hsum, Finset.sum_div]
  exact Finset.sum_congr rfl fun k _ => mul_div_assoc _ _ _

/-- **The gap is the score of the difference of the means.** -/
theorem separation_eq_sum (theta : FeatureVector ℚ) (valid invalid : List (Derivation ℚ)) :
    separation theta valid invalid =
      ∑ k ∈ theta.keySet, theta.weight k * meanGap valid invalid k := by
  simp only [separation, meanScore_eq_sum, ← Finset.sum_sub_distrib, ← mul_sub, meanGap]

/-! ### The gap under an update -/

theorem weight_gapVector_of_mem {k : FeatureKey} (hk : k ∈ (gapVector valid invalid).keySet) :
    (gapVector valid invalid).weight k = meanGap valid invalid k ∧
      FeatureVector.noise ≤ |meanGap valid invalid k| := by
  obtain ⟨x, hx⟩ := FeatureVector.mem_keySet_iff.1 hk
  rw [FeatureVector.weight, get?_gapVector]
  rw [get?_gapVector] at hx
  split_ifs at hx ⊢ with hnoise
  exact ⟨rfl, hnoise⟩

/-- The pruned features are those that the update does not weigh. -/
theorem separation_gapVector (valid invalid : List (Derivation ℚ)) :
    separation (gapVector valid invalid) valid invalid =
      ∑ k ∈ (gapVector valid invalid).keySet, (gapVector valid invalid).weight k ^ 2 := by
  rw [separation_eq_sum]
  refine Finset.sum_congr rfl fun k hk => ?_
  rw [← (weight_gapVector_of_mem hk).1, sq]

theorem sum_sq_gapVector_eq_zero_iff (valid invalid : List (Derivation ℚ)) :
    ∑ k ∈ (gapVector valid invalid).keySet, (gapVector valid invalid).weight k ^ 2 = 0 ↔
      (gapVector valid invalid).isEmpty = true := by
  rw [Finset.sum_eq_zero_iff_of_nonneg fun k _ => sq_nonneg _, FeatureVector.isEmpty_iff_keySet]
  constructor
  · intro hzero
    refine Finset.eq_empty_of_forall_notMem fun k hk => ?_
    obtain ⟨hweight, hnoise⟩ := weight_gapVector_of_mem hk
    have hgap : meanGap valid invalid k = 0 := by
      rw [← hweight]
      exact pow_eq_zero_iff two_ne_zero |>.1 (hzero k hk)
    rw [hgap, abs_zero] at hnoise
    exact absurd FeatureVector.noise_pos (not_lt.2 hnoise)
  · intro hempty k hk
    rw [hempty] at hk
    exact absurd hk (Finset.notMem_empty k)

/-- **An update widens the gap that it was built from**, by the square of its length.  So the gap
never gets smaller, and it stays as it is only if the update is empty. -/
theorem separation_addUpdate {p : Progress S ℚ}
    (h : constructUpdate p.model valid invalid = .ok update) :
    let before := separation p.model.theta valid invalid
    let after := separation (p.addUpdate update).model.theta valid invalid
    after = before + ∑ k ∈ update.keySet, update.weight k ^ 2 ∧ before ≤ after ∧
      (after = before ↔ update.isEmpty = true) := by
  intro before after
  obtain rfl := eq_gapVector_of_constructUpdate h
  have hafter : after = before +
      ∑ k ∈ (gapVector valid invalid).keySet, (gapVector valid invalid).weight k ^ 2 := by
    rw [← separation_gapVector, ← one_mul (separation (gapVector valid invalid) valid invalid)]
    exact separation_addTimes p.model.theta _ 1 valid invalid
  refine ⟨hafter, ?_, ?_⟩
  · rw [hafter]
    exact le_add_of_nonneg_right (Finset.sum_nonneg fun k _ => sq_nonneg _)
  · rw [hafter, add_eq_left, sum_sq_gapVector_eq_zero_iff]

/-- The wrong town leads by 13/2; after the update it still leads, but by 17/4 less. -/
theorem separation_addUpdate_towns :
    let valid := [townReading "boston" (.ofList [(⟨"a"⟩, 1), (⟨"noise"⟩, 8 / 100000)]),
      townReading "dallas" (.ofList [(⟨"b"⟩, 1)])]
    let invalid := [townReading "austin" (.ofList [(⟨"c"⟩, 2), (⟨"a"⟩, 1 / 2)])]
    let p : Progress Bool ℚ := ⟨{ theta := .ofList [(⟨"a"⟩, 1), (⟨"b"⟩, -1), (⟨"c"⟩, 3)] }, {}⟩
    let update := gapVector valid invalid
    constructUpdate p.model valid invalid = .ok update ∧
      separation p.model.theta valid invalid = -13 / 2 ∧
      separation (p.addUpdate update).model.theta valid invalid = -13 / 2 + 17 / 4 := by
  intro valid invalid p update
  have hadmits : p.model.admitsUpdate update = true := by decide +kernel
  have hok : constructUpdate p.model valid invalid = .ok update := by
    rw [constructUpdate_eq, if_neg (by decide), if_pos hadmits]
  have hbefore : separation p.model.theta valid invalid = -13 / 2 := by decide +kernel
  have hlength : ∑ k ∈ update.keySet, update.weight k ^ 2 = 17 / 4 := by decide +kernel
  refine ⟨hok, hbefore, ?_⟩
  rw [(separation_addUpdate hok).1, hbefore, hlength]

end LogicalForms
