import LogicalForms.Proofs.Learning.Means
import LogicalForms.Proofs.Learning.Violations

/-!
# Margins

Whether a pair violates the margin is a comparison of the score of its difference with the margin
times its norm (`violatesMargin_iff`).  As norms are not negative, a larger margin is violated by all
pairs that violate a smaller one (`violatesMargin_mono`), and the violations found under it have
those found under the smaller one among them, by position (`violations_of_margin_le`).  Multiplying
the weights and the margin by the same positive number changes nothing (`violatesMargin_scaled`).
-/

namespace LogicalForms

/-! ### Pairs -/

section Pair

variable {theta theta' : FeatureVector ℚ} {margin margin' factor : ℚ} {v w : Derivation ℚ}

/-- The difference of the features of a pair. -/
def featureGap (v w : Derivation ℚ) : FeatureVector ℚ := v.features.addTimes (-1) w.features

theorem weight_featureGap (v w : Derivation ℚ) (k : FeatureKey) :
    (featureGap v w).weight k = v.features.weight k - w.features.weight k := by
  rw [featureGap, FeatureVector.weight_addTimes, neg_one_mul, sub_eq_add_neg]

theorem violatesMargin_iff :
    violatesMargin theta margin v w = true ↔
      (featureGap v w).dot theta < margin * (featureGap v w).l1Norm :=
  decide_eq_true_iff

/-- **A larger margin is violated by more pairs.** -/
theorem violatesMargin_mono (hle : margin ≤ margin')
    (h : violatesMargin theta margin v w = true) : violatesMargin theta margin' v w = true := by
  rw [violatesMargin_iff] at h ⊢
  calc (featureGap v w).dot theta
      < margin * (featureGap v w).l1Norm := h
    _ ≤ margin' * (featureGap v w).l1Norm :=
      mul_le_mul_of_nonneg_right hle (FeatureVector.l1Norm_nonneg _)

/-- **Only the proportion of the weights to the margin counts.** -/
theorem violatesMargin_scaled (hfactor : 0 < factor)
    (htheta : ∀ k, theta'.weight k = factor * theta.weight k) :
    violatesMargin theta' (factor * margin) v w = violatesMargin theta margin v w := by
  have hdot : (featureGap v w).dot theta' = factor * (featureGap v w).dot theta := by
    rw [FeatureVector.dot_eq_sum subset_rfl, FeatureVector.dot_eq_sum subset_rfl, Finset.mul_sum]
    refine Finset.sum_congr rfl fun k _ => ?_
    rw [htheta, mul_left_comm]
  rw [Bool.eq_iff_iff, violatesMargin_iff, violatesMargin_iff, hdot, mul_assoc,
    mul_lt_mul_iff_right₀ hfactor]

/-- **A pair with the same features does not violate any margin.** -/
theorem violatesMargin_of_sameWeights (h : v.features.SameWeights w.features) :
    violatesMargin theta margin v w = false := by
  have hgap : (featureGap v w).SameWeights ∅ := by
    intro k
    rw [weight_featureGap, h k, sub_self]
    rfl
  have hdot : (featureGap v w).dot theta = 0 := by
    rw [hgap.dot_eq fun _ => rfl, FeatureVector.dot_eq_dotOver]
    rfl
  have hnorm : (featureGap v w).l1Norm = 0 := hgap.l1Norm_eq
  rw [Bool.eq_false_iff, Ne, violatesMargin_iff, hdot, hnorm, mul_zero]
  exact lt_irrefl 0

end Pair

/-! ### Scans of a test that more pairs violate -/

section Scan

variable {m n : ℕ} {test test' : Fin m → Fin n → Bool}

theorem valid_scan_sublist (h : ∀ i j, test i j = true → test' i j = true) :
    (scan test).valid.Sublist (scan test').valid := by
  have hsubset : (scan test).valid ⊆ (scan test').valid := by
    intro i hi
    obtain ⟨j, hij⟩ := mem_valid_scan.1 hi
    exact mem_valid_scan.2 ⟨j, h i j hij⟩
  exact List.sublist_of_subperm_of_sortedLE
    (List.subperm_of_subset (sorted_valid_scan test).nodup hsubset)
    (sorted_valid_scan test).sortedLE (sorted_valid_scan test').sortedLE

theorem invalid_scan_subset (h : ∀ i j, test i j = true → test' i j = true) :
    (scan test).invalid ⊆ (scan test').invalid := by
  intro j hj
  obtain ⟨i, hij⟩ := mem_invalid_scan.1 hj
  exact mem_invalid_scan.2 ⟨i, h i j hij⟩

end Scan

/-- **Raising the margin adds violations, and takes none away.**  The positions of the valid members
keep their order.  If weights and margin are multiplied by the same positive number, the violations
stay as they are.  A pair with the same features is never among them. -/
theorem violations_of_margin_le (valid invalid : List (Derivation ℚ)) :
    let found theta margin := scan (testAt (violatesMargin theta margin) valid invalid)
    (∀ theta margin, violations (violatesMargin theta margin) valid invalid =
      ((found theta margin).valid.map valid.get, (found theta margin).invalid.map invalid.get)) ∧
    (∀ theta margin margin', margin ≤ margin' →
      (found theta margin).valid.Sublist (found theta margin').valid ∧
        (found theta margin).invalid ⊆ (found theta margin').invalid) ∧
    (∀ theta theta' margin factor, 0 < factor →
      (∀ k, theta'.weight k = factor * theta.weight k) →
      found theta' (factor * margin) = found theta margin ∧
        violations (violatesMargin theta' (factor * margin)) valid invalid =
          violations (violatesMargin theta margin) valid invalid) ∧
    ∀ (theta : FeatureVector ℚ) margin (v w : Derivation ℚ),
      v.features.SameWeights w.features → violatesMargin theta margin v w = false := by
  intro found
  refine ⟨fun theta margin => violations_eq_map_scan _ valid invalid,
    fun theta margin margin' hle => ?_, fun theta theta' margin factor hfactor htheta => ?_,
    fun theta margin v w => violatesMargin_of_sameWeights⟩
  · have hmono : ∀ i j, testAt (violatesMargin theta margin) valid invalid i j = true →
        testAt (violatesMargin theta margin') valid invalid i j = true :=
      fun i j => violatesMargin_mono hle
    exact ⟨valid_scan_sublist hmono, invalid_scan_subset hmono⟩
  · have htest : violatesMargin theta' (factor * margin) = violatesMargin theta margin := by
      funext v w
      exact violatesMargin_scaled hfactor htheta
    exact ⟨congrArg (fun test => scan (testAt test valid invalid)) htest,
      congrArg (violations · valid invalid) htest⟩

/-- With the larger margin the second of the right readings comes in, even after weights and margin
have been tripled. -/
theorem violations_of_margin_le_level :
    let theta : FeatureVector ℚ := .ofList [(⟨"A"⟩, 1)]
    let valid := [levelReading "right" 1, levelReading "right" 3]
    let invalid := [levelReading "wrong" 2, levelReading "wrong" 0]
    let found theta margin := scan (testAt (violatesMargin theta margin) valid invalid)
    (found theta 0).valid.map Fin.val = [0] ∧ (found theta 2).valid.map Fin.val = [0, 1] ∧
      (found theta 0).valid.Sublist (found theta 2).valid ∧
      found (theta.addTimes 2 theta) (3 * 2) = found theta 2 ∧
      violatesMargin theta 5 (levelReading "right" 1) (levelReading "wrong" 1) = false := by
  intro theta valid invalid found
  obtain ⟨-, hmargin, hfactor, hsame⟩ := violations_of_margin_le valid invalid
  have htriple : ∀ k, (theta.addTimes 2 theta).weight k = 3 * theta.weight k := by
    intro k
    rw [FeatureVector.weight_addTimes]
    ring
  refine ⟨by decide +kernel, by decide +kernel, ?_, ?_, ?_⟩
  · exact (hmargin theta 0 2 (by decide +kernel)).1
  · exact (hfactor theta (theta.addTimes 2 theta) 2 3 (by decide +kernel) htriple).1
  · exact hsame theta 5 (levelReading "right" 1) (levelReading "wrong" 1) fun _ => rfl

end LogicalForms
