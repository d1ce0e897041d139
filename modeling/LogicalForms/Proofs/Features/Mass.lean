import LogicalForms.Proofs.Features.Arithmetic
import LogicalForms.Proofs.Score.LogReal

/-!
# Masses in sparse vectors

A vector in log space gives a mass to each key (`FeatureVector.massAt`), and
`FeatureVector.addLogMass` adds to it (`FeatureVector.massAt_addLogMass`).
-/

namespace LogicalForms.FeatureVector

open LogReal

variable {v w : FeatureVector LogReal} {k : FeatureKey}

/-- The weights are numbers and not negative. -/
def Nonneg (v : FeatureVector LogReal) : Prop := ∀ e ∈ v.entries, 0 ≤ e.2

/-- The weight of `k` as a real number. -/
noncomputable def value (v : FeatureVector LogReal) (k : FeatureKey) : ℝ := (v.weight k).unbotD 0

theorem Nonneg.exists_coe (h : v.Nonneg) {x : LogReal} (hx : v.get? k = some x) :
    ∃ y : ℝ, 0 ≤ y ∧ x = y := by
  have hpos : 0 ≤ x := h (k, x) (get?_eq_some_iff.1 hx)
  cases x using WithBot.recBotCoe with
  | bot => exact absurd (le_bot_iff.1 hpos) (WithBot.coe_ne_bot (a := (0 : ℝ)))
  | coe y => exact ⟨y, WithBot.coe_le_coe.1 hpos, rfl⟩

variable [ExpLog]

/-- The mass of `k` in a vector of logarithms; without an entry there is none. -/
noncomputable def massAt (v : FeatureVector LogReal) (k : FeatureKey) : ℝ := (v.get? k).elim 0 mass

theorem massAt_empty (k : FeatureKey) : (∅ : FeatureVector LogReal).massAt k = 0 := rfl

theorem mass_getD (v : FeatureVector LogReal) (k : FeatureKey) :
    mass ((v.get? k).getD LogScale.negInf) = v.massAt k := by
  rw [massAt]
  cases v.get? k <;> rfl

/-- **Masses add up.** -/
theorem massAt_addLogMass (hw : w.Nonneg) (v : FeatureVector LogReal) (x : LogReal)
    (k : FeatureKey) : (v.addLogMass x w).massAt k = v.massAt k + mass x * w.value k := by
  rw [massAt, get?_addLogMass, value, weight]
  cases hk : w.get? k with
  | none => simp [massAt]
  | some y =>
    obtain ⟨y, hy, rfl⟩ := hw.exists_coe hk
    have hmass : mass (x + LogScale.log (y : LogReal)) = mass x * y := by
      rw [mass_add, log_coe, mass_ofMass hy]
    simp only [Option.getD_some, WithBot.unbotD_coe]
    rw [← hmass]
    split_ifs with himpossible
    · rw [impossible_iff.1 himpossible, mass_bot, add_zero, massAt]
    · rw [Option.elim_some, mass_logAddExp, mass_getD]

end LogicalForms.FeatureVector
