import LogicalForms.Proofs.Learning.Means

/-!
# Updates as functions of the means

`constructUpdate` goes through the derivations in order and adds their features entry by entry.
What comes out is settled by the weights of the features alone (`constructUpdate_congr`): the order
of the derivations has no part in it, nor have the zeros that they store.
`constructUpdate_eq_meanGap` says what it is.
-/

namespace LogicalForms

variable {S : Type} {valid valid' invalid invalid' ds ds' : List (Derivation ℚ)}

/-- The derivations have the same weights, in some order. -/
def SameReadings (ds ds' : List (Derivation ℚ)) : Prop :=
  (ds.map fun d => d.features.weight).Perm (ds'.map fun d => d.features.weight)

namespace SameReadings

theorem of_perm (h : ds.Perm ds') : SameReadings ds ds' := h.map _

theorem of_forall₂
    (h : List.Forall₂ (fun d d' => d.features.SameWeights d'.features) ds ds') :
    SameReadings ds ds' := by
  refine List.Perm.of_eq ?_
  induction h with
  | nil => rfl
  | cons hd _ ih => rw [List.map_cons, List.map_cons, ih, funext hd]

theorem length_eq (h : SameReadings ds ds') : ds.length = ds'.length := by
  simpa using List.Perm.length_eq h

theorem eq_nil_iff (h : SameReadings ds ds') : ds = [] ↔ ds' = [] := by
  rw [← List.length_eq_zero_iff, h.length_eq, List.length_eq_zero_iff]

theorem meanWeight_eq (h : SameReadings ds ds') (k : FeatureKey) :
    meanWeight ds k = meanWeight ds' k := by
  have hsum : (ds.map fun d => d.features.weight k).sum =
      (ds'.map fun d => d.features.weight k).sum := by
    have hweights := (List.Perm.map (fun weight => weight k) h).sum_eq
    rwa [List.map_map, List.map_map] at hweights
  rw [meanWeight, meanWeight, hsum, h.length_eq]

end SameReadings

/-- **Equal weights give equal updates.** -/
theorem constructUpdate_congr (model : Model S ℚ) (hvalid : SameReadings valid valid')
    (hinvalid : SameReadings invalid invalid') :
    constructUpdate model valid' invalid' = constructUpdate model valid invalid := by
  have hgap : gapVector valid' invalid' = gapVector valid invalid := by
    refine FeatureVector.ext_get? fun k => ?_
    rw [get?_gapVector, get?_gapVector, meanGap, meanGap, hvalid.meanWeight_eq,
      hinvalid.meanWeight_eq]
  rw [constructUpdate_eq, constructUpdate_eq, hgap]
  exact if_congr (or_congr hvalid.eq_nil_iff.symm hinvalid.eq_nil_iff.symm) rfl rfl

/-- **An update is the difference of the means without its noise.**  It is refused if one side is
empty or if the model does not admit it.  It does not change if the derivations come in another
order, or if their features store other zeros. -/
theorem constructUpdate_eq_meanGap (model : Model S ℚ) (valid invalid : List (Derivation ℚ)) :
    (∃ gap : FeatureVector ℚ,
      (∀ k, gap.get? k =
        if FeatureVector.noise ≤ |meanGap valid invalid k| then some (meanGap valid invalid k)
        else none) ∧
      constructUpdate model valid invalid =
        if valid = [] ∨ invalid = [] then .error .emptyViolatingSet
        else if model.admitsUpdate gap then .ok gap
        else .error (.invalidUpdate gap)) ∧
    (∀ valid' invalid', valid.Perm valid' → invalid.Perm invalid' →
      constructUpdate model valid' invalid' = constructUpdate model valid invalid) ∧
    ∀ valid' invalid',
      List.Forall₂ (fun d d' => d.features.SameWeights d'.features) valid valid' →
      List.Forall₂ (fun d d' => d.features.SameWeights d'.features) invalid invalid' →
      constructUpdate model valid' invalid' = constructUpdate model valid invalid := by
  refine ⟨⟨gapVector valid invalid, get?_gapVector valid invalid, constructUpdate_eq _ _ _⟩,
    fun valid' invalid' hvalid hinvalid => ?_, fun valid' invalid' hvalid hinvalid => ?_⟩
  · exact constructUpdate_congr model (.of_perm hvalid) (.of_perm hinvalid)
  · exact constructUpdate_congr model (.of_forall₂ hvalid) (.of_forall₂ hinvalid)

/-! ### Two towns against one -/

/-- A reading of a town with these features. -/
def townReading (name : String) (features : FeatureVector ℚ) : Derivation ℚ :=
  .single (.const ⟨name, .atom "e"⟩) 0 features

/-- The feature that they share cancels, and the noise is dropped.  The other order and a zero that
is stored make no difference. -/
theorem constructUpdate_eq_meanGap_towns :
    let boston := townReading "boston" (.ofList [(⟨"a"⟩, 1), (⟨"noise"⟩, 8 / 100000)])
    let dallas := townReading "dallas" (.ofList [(⟨"b"⟩, 1)])
    let padded := townReading "dallas" (dallas.features.set ⟨"c"⟩ 0)
    let austin := townReading "austin" (.ofList [(⟨"c"⟩, 2), (⟨"a"⟩, 1 / 2)])
    let model : Model Bool ℚ := {}
    let update := constructUpdate model [boston, dallas] [austin]
    update.toOption.map FeatureVector.entries = some [(⟨"b"⟩, 1 / 2), (⟨"c"⟩, -2)] ∧
      constructUpdate model [dallas, boston] [austin] = update ∧
      constructUpdate model [boston, padded] [austin] = update := by
  intro boston dallas padded austin model update
  have hzero : dallas.features.weight ⟨"c"⟩ = 0 := by decide +kernel
  obtain ⟨-, hperm, hzeros⟩ := constructUpdate_eq_meanGap model [boston, dallas] [austin]
  refine ⟨by decide +kernel, ?_, ?_⟩
  · exact hperm _ _ (.swap dallas boston []) (.refl _)
  · have hsame : dallas.features.SameWeights padded.features :=
      FeatureVector.sameWeights_set_zero hzero
    exact hzeros _ _ (.cons (fun _ => rfl) (.cons hsame .nil)) (.cons (fun _ => rfl) .nil)

end LogicalForms
