import LogicalForms.Features.Arithmetic
import Mathlib.Tactic.Common

/-!
# Zeros are noise

A vector without noise stores no zero of either sign (`NoisyZero`).  For doubles this is read off
their unpacked form, since a comparison does not compute in any other way.
-/

namespace LogicalForms

/-- Numbers for which everything that compares equal to zero is noise. -/
class NoisyZero (α : Type) [Zero α] [Neg α] [LT α] [DecidableLT α] [LE α] [BEq α]
    [OfScientific α] : Prop where
  not_noise_le : ∀ x : α, (x == 0) = true → ¬FeatureVector.noise ≤ magnitude x

namespace Double

open Float.Model

theorem lt_iff (x y : Float) : x < y ↔ x.toModel.unpack.lt y.toModel.unpack = true :=
  decide_eq_true_iff

theorem le_iff (x y : Float) : x ≤ y ↔ x.toModel.unpack.le y.toModel.unpack = true :=
  decide_eq_true_iff

theorem unpack_zero : (0 : Float).toModel.unpack = .zero .positive := rfl

theorem exists_eq_zero_of_beq {u : UnpackedFloat} (h : u.beq (.zero .positive) = true) :
    ∃ s, u = .zero s := by
  cases u with
  | infinity s => cases s <;> cases h
  | notANumber => cases h
  | zero s => exact ⟨s, rfl⟩
  | finite s m e hm => cases s <;> cases h

theorem noise_not_le_zero (s : UnpackedFloat.Sign) :
    (FeatureVector.noise : Float).toModel.unpack.le (.zero s) = false := by
  cases s <;> decide +kernel

end Double

instance : NoisyZero Float where
  not_noise_le x hx := by
    obtain ⟨s, hs⟩ : ∃ s, x.toModel.unpack = .zero s := Double.exists_eq_zero_of_beq hx
    -- negative zero is not below zero, so it is its own magnitude
    have hlt : ¬x < 0 := by
      rw [Double.lt_iff, hs, Double.unpack_zero]
      exact Bool.false_ne_true
    rw [magnitude, if_neg hlt, Double.le_iff, hs, Double.noise_not_le_zero]
    exact Bool.false_ne_true

end LogicalForms
