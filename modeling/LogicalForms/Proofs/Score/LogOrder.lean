import LogicalForms.Proofs.Score.LogReal

/-!
# Logarithms of masses in order

When the exponential is increasing (`ExpLog.Increasing`), scores compare like their masses
(`LogReal.mass_le_mass_iff`).  A logarithmic sum is then no less than any of the scores
(`LogReal.le_logSumExp`), and it exceeds a bound of them by no more than the logarithm of their
number (`LogReal.logSumExp_le`).
-/

namespace LogicalForms

/-- The exponential is increasing. -/
class ExpLog.Increasing [ExpLog] : Prop where
  strictMono_exp : StrictMono ExpLog.exp

theorem ExpLog.increasing_standard : @ExpLog.Increasing ExpLog.standard :=
  let _ := ExpLog.standard
  ⟨Real.exp_strictMono⟩

namespace LogReal

variable [ExpLog] [ExpLog.Increasing] {xs : List LogReal} {x y : LogReal}

theorem mass_strictMono : StrictMono mass := by
  intro x y h
  cases y using WithBot.recBotCoe with
  | bot => exact absurd h not_lt_bot
  | coe y =>
    cases x using WithBot.recBotCoe with
    | bot => exact ExpLog.exp_pos y
    | coe x => exact ExpLog.Increasing.strictMono_exp (WithBot.coe_lt_coe.1 h)

theorem mass_le_mass_iff : mass x ≤ mass y ↔ x ≤ y := mass_strictMono.le_iff_le

/-- **A logarithmic sum reaches each of the scores.** -/
theorem le_logSumExp (h : x ∈ xs) : x ≤ logSumExp xs := by
  have hnonneg : ∀ y ∈ xs.map mass, 0 ≤ y := by simpa using fun y _ => mass_nonneg y
  rw [← mass_le_mass_iff, mass_logSumExp]
  exact List.single_le_sum hnonneg _ (List.mem_map_of_mem h)

/-- **A logarithmic sum is as large as so many times the largest mass, at most.** -/
theorem logSumExp_le (h : ∀ x ∈ xs, x ≤ y) :
    logSumExp xs ≤ y + LogScale.log ((xs.length : ℝ) : LogReal) := by
  have hlength : mass (LogScale.log ((xs.length : ℝ) : LogReal)) = xs.length :=
    mass_ofMass (Nat.cast_nonneg _)
  have hbound : ∀ z ∈ xs.map mass, z ≤ mass y := by simpa [mass_le_mass_iff] using h
  rw [← mass_le_mass_iff, mass_logSumExp, mass_add, hlength]
  calc (xs.map mass).sum
      ≤ (xs.map mass).length • mass y := List.sum_le_card_nsmul _ _ hbound
    _ = mass y * xs.length := by rw [List.length_map, nsmul_eq_mul, mul_comm]

end LogReal

end LogicalForms
