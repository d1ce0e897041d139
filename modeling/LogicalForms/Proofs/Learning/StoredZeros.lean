import LogicalForms.Proofs.Learning.Margin

/-!
# Stored zeros

A vector may store a zero, and then it is not equal to the vector that leaves the zero out.
Arithmetic stores zeros, as nothing is ever removed by adding, and which of two vectors an inner
product goes through depends on how many entries each has.  None of this shows: vectors with the
same weights have the same inner products, norms and remainders without noise, and the same
derivations violate a margin (`violations_of_sameWeights`).

So vectors act as the functions from keys to weights that they stand for
(`FeatureVector.acts_as_weights`).
-/

namespace LogicalForms

/-! ### Margins -/

section Margin

variable {δ : Type} {theta theta' : FeatureVector ℚ} {f f' : δ → Derivation ℚ}

theorem violatesMargin_congr {v v' w w' : Derivation ℚ} (htheta : theta.SameWeights theta')
    (hv : v.features.SameWeights v'.features) (hw : w.features.SameWeights w'.features)
    (margin : ℚ) : violatesMargin theta margin v w = violatesMargin theta' margin v' w' := by
  have hgap : (featureGap v w).SameWeights (featureGap v' w') := hv.addTimes hw (-1)
  rw [Bool.eq_iff_iff, violatesMargin_iff, violatesMargin_iff, hgap.dot_eq htheta, hgap.l1Norm_eq]

/-- **Only weights decide which derivations violate a margin.** -/
theorem violations_of_sameWeights (htheta : theta.SameWeights theta')
    (hf : ∀ d, (f d).features.SameWeights (f' d).features) (margin : ℚ) (valid invalid : List δ) :
    let found := violations (fun v w => violatesMargin theta margin (f v) (f w)) valid invalid
    violations (violatesMargin theta margin) (valid.map f) (invalid.map f) =
        (found.1.map f, found.2.map f) ∧
      violations (violatesMargin theta' margin) (valid.map f') (invalid.map f') =
        (found.1.map f', found.2.map f') := by
  have htest : (fun v w => violatesMargin theta margin (f v) (f w)) =
      fun v w => violatesMargin theta' margin (f' v) (f' w) := by
    funext v w
    exact violatesMargin_congr htheta (hf v) (hf w) margin
  refine ⟨violations_map _ f valid invalid, ?_⟩
  rw [htest]
  exact violations_map _ f' valid invalid

end Margin

namespace FeatureVector

/-- **A vector acts as the function from keys to weights that it stands for**, whatever zeros it
stores.  Adding a multiple adds multiples of weights.  The inner product is the sum over all keys,
no matter which vector is gone through, and it is linear; the norm satisfies the triangle
inequality.  In place of a vector there may be any other one with the same weights: inner products
and norms stay the same, the same is left without noise, and the derivations that violate a margin
are those with the same places in the lists. -/
theorem acts_as_weights {δ : Type} :
    (∀ (u v w : FeatureVector ℚ) (x : ℚ),
      (∀ k, (u.addTimes x v).weight k = u.weight k + x * v.weight k) ∧
        u.dot v = ∑ᶠ k, u.weight k * v.weight k ∧ v.dot u = u.dot v ∧
        u.dotOver v = u.dot v ∧ v.dotOver u = u.dot v ∧
        (u.addTimes x v).dot w = u.dot w + x * v.dot w ∧
        (u.addTimes x v).l1Norm ≤ u.l1Norm + |x| * v.l1Norm) ∧
    (∀ u u' : FeatureVector ℚ, u.SameWeights u' →
      (∀ v v' : FeatureVector ℚ, v.SameWeights v' → u.dot v = u'.dot v') ∧
        u.l1Norm = u'.l1Norm ∧ u.dropNoise = u'.dropNoise) ∧
    ∀ (theta theta' : FeatureVector ℚ) (margin : ℚ) (f f' : δ → Derivation ℚ),
      theta.SameWeights theta' → (∀ d, (f d).features.SameWeights (f' d).features) →
      ∀ valid invalid : List δ,
        let found := violations (fun v w => violatesMargin theta margin (f v) (f w)) valid invalid
        violations (violatesMargin theta margin) (valid.map f) (invalid.map f) =
            (found.1.map f, found.2.map f) ∧
          violations (violatesMargin theta' margin) (valid.map f') (invalid.map f') =
            (found.1.map f', found.2.map f') := by
  refine ⟨fun u v w x => ?_, fun u u' hu => ?_,
    fun theta theta' margin f f' htheta hf valid invalid => ?_⟩
  · exact ⟨weight_addTimes u v x, dot_eq_finsum u v, dot_comm v u, (dot_eq_dotOver u v).symm,
      (dot_eq_dotOver v u).symm.trans (dot_comm v u), dot_addTimes u v w x,
      l1Norm_addTimes_le u v x⟩
  · exact ⟨fun v v' hv => hu.dot_eq hv, hu.l1Norm_eq, hu.dropNoise_eq⟩
  · exact violations_of_sameWeights htheta hf margin valid invalid

/-- A reading with one feature, and a stored zero beside it. -/
def zeroReading (name : String) (x : ℚ) : Derivation ℚ :=
  .single (.const ⟨name, .atom "e"⟩) 0 ((ofList [(⟨"A"⟩, x)]).set ⟨"B"⟩ 0)

/-- Zeros stored in the weights and in the features make the vectors longer, and nothing else. -/
theorem acts_as_weights_zeroReading :
    let theta : FeatureVector ℚ := .ofList [(⟨"A"⟩, 1)]
    let theta' := (theta.set ⟨"B"⟩ 0).set ⟨"C"⟩ 0
    let reading (d : String × ℚ) := levelReading d.1 d.2
    let reading' (d : String × ℚ) := zeroReading d.1 d.2
    let valid := [("right", 1), ("right", 3)]
    let invalid := [("wrong", 2)]
    theta.size = 1 ∧ theta'.size = 3 ∧ theta.l1Norm = theta'.l1Norm ∧
      theta.dropNoise = theta'.dropNoise ∧
      violations (violatesMargin theta 1) (valid.map reading) (invalid.map reading) =
        ([reading ("right", 1)], [reading ("wrong", 2)]) ∧
      violations (violatesMargin theta' 1) (valid.map reading') (invalid.map reading') =
        ([reading' ("right", 1)], [reading' ("wrong", 2)]) := by
  intro theta theta' reading reading' valid invalid
  obtain ⟨-, hsame, hviolations⟩ := acts_as_weights (δ := String × ℚ)
  have htheta : theta.SameWeights theta' := by
    intro k
    rw [sameWeights_set_zero (v := theta) (k := ⟨"B"⟩) (by decide +kernel) k]
    exact sameWeights_set_zero (by decide +kernel) k
  have hreading : ∀ d, (reading d).features.SameWeights (reading' d).features :=
    fun d => sameWeights_set_zero rfl
  obtain ⟨-, hnorm, hnoise⟩ := hsame theta theta' htheta
  obtain ⟨hplain, hzero⟩ :=
    hviolations theta theta' 1 reading reading' htheta hreading valid invalid
  have hfound : violations (fun v w => violatesMargin theta 1 (reading v) (reading w)) valid
      invalid = ([("right", 1)], [("wrong", 2)]) := by decide +kernel
  rw [hfound] at hplain hzero
  exact ⟨by decide +kernel, by decide +kernel, hnorm, hnoise, hplain, hzero⟩

end FeatureVector

end LogicalForms
