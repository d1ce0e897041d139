import LogicalForms.Score.LogSum
import Mathlib.Algebra.BigOperators.Ring.List
import Mathlib.Algebra.Order.BigOperators.Group.List
import Mathlib.Algebra.Order.Monoid.Unbundled.WithTop
import Mathlib.Analysis.SpecialFunctions.Log.Basic
import Mathlib.Data.List.Fold

/-!
# Exact logarithms of masses

`LogReal` are the reals with −∞.  Of the exponential and the logarithm only their laws are known
(`ExpLog`): they are inverse to each other, and the exponential turns sums into products.  The mass
of a score is its exponential (`LogReal.mass`), and −∞ has none.

* `LogReal.mass_logSumExp`, `LogReal.mass_logAddExp` — the sums of `Score.LogSum` add masses up.
-/

namespace LogicalForms

/-- The reals with −∞. -/
abbrev LogReal := WithBot ℝ

/-- An exponential and a logarithm of reals. -/
class ExpLog where
  /-- The exponential. -/
  exp : ℝ → ℝ
  /-- The logarithm of a positive number. -/
  log : ℝ → ℝ
  exp_add : ∀ x y, exp (x + y) = exp x * exp y
  log_exp : ∀ x, log (exp x) = x
  exp_log : ∀ y, 0 < y → exp (log y) = y

namespace ExpLog

variable [ExpLog]

theorem exp_ne_zero (x : ℝ) : exp x ≠ 0 := by
  intro h
  have hzero : ∀ y, exp y = 0 := fun y => by
    rw [show y = x + (y - x) by ring, exp_add, h, zero_mul]
  have hone : (1 : ℝ) = 0 := by
    rw [← log_exp 1, ← log_exp 0, hzero 1, hzero 0]
  exact one_ne_zero hone

theorem exp_pos (x : ℝ) : 0 < exp x := by
  have hsquare : exp x = exp (x / 2) * exp (x / 2) := by
    rw [← exp_add, add_halves]
  rw [hsquare]
  exact mul_self_pos.2 (exp_ne_zero _)

theorem exp_zero : exp 0 = 1 := by
  have hsquare : exp 0 * exp 0 = exp 0 * 1 := by
    rw [← exp_add, add_zero, mul_one]
  exact mul_left_cancel₀ (exp_ne_zero 0) hsquare

/-- The exponential and the logarithm of analysis. -/
noncomputable abbrev standard : ExpLog where
  exp := Real.exp
  log := Real.log
  exp_add := Real.exp_add
  log_exp := Real.log_exp
  exp_log _ := Real.exp_log

end ExpLog

namespace LogReal

/-- A difference with −∞ on either side is −∞; no definition takes −∞ off a number. -/
instance : Sub LogReal := ⟨WithBot.map₂ (· - ·)⟩

theorem coe_sub (x y : ℝ) : ((x - y : ℝ) : LogReal) = (x : LogReal) - y := rfl

theorem bot_sub (y : LogReal) : (⊥ : LogReal) - y = ⊥ := rfl

variable [ExpLog]

/-- The exponential of a score; −∞ has no mass. -/
noncomputable def mass : LogReal → ℝ
  | ⊥ => 0
  | (x : ℝ) => ExpLog.exp x

/-- The score of a mass.  There is no negative mass. -/
noncomputable def ofMass (y : ℝ) : LogReal := if 0 < y then (ExpLog.log y : ℝ) else ⊥

open Classical in
noncomputable instance instLogScale : LogScale LogReal where
  impossible x := decide (x = ⊥)
  lowest := (((-(2 ^ 1024 - 2 ^ 971) : ℤ) : ℝ) : LogReal)
  negInf := ⊥
  exp x := (mass x : ℝ)
  log y := ofMass (y.unbotD 0)

@[simp] theorem impossible_iff {x : LogReal} : ScoreRange.impossible x = true ↔ x = ⊥ :=
  decide_eq_true_iff

theorem negInf_eq : (LogScale.negInf : LogReal) = ⊥ := rfl

theorem exp_eq (x : LogReal) : LogScale.exp x = ((mass x : ℝ) : LogReal) := rfl

theorem log_coe (y : ℝ) : LogScale.log (y : LogReal) = ofMass y := rfl

/-! ### Masses -/

@[simp] theorem mass_bot : mass ⊥ = 0 := rfl

theorem mass_coe (x : ℝ) : mass x = ExpLog.exp x := rfl

theorem mass_nonneg (x : LogReal) : 0 ≤ mass x := by
  cases x using WithBot.recBotCoe with
  | bot => exact le_refl 0
  | coe x => exact (ExpLog.exp_pos x).le

theorem mass_pos_iff {x : LogReal} : 0 < mass x ↔ x ≠ ⊥ := by
  cases x using WithBot.recBotCoe with
  | bot => simp
  | coe x => exact iff_of_true (ExpLog.exp_pos x) (WithBot.coe_ne_bot)

@[simp] theorem mass_zero : mass 0 = 1 := ExpLog.exp_zero

theorem mass_add (x y : LogReal) : mass (x + y) = mass x * mass y := by
  cases x using WithBot.recBotCoe with
  | bot => simp
  | coe x =>
    cases y using WithBot.recBotCoe with
    | bot => simp
    | coe y => exact ExpLog.exp_add x y

theorem mass_ofMass {y : ℝ} (h : 0 ≤ y) : mass (ofMass y) = y := by
  rw [ofMass]
  split_ifs with hpos
  · exact ExpLog.exp_log y hpos
  · rw [mass_bot]
    exact le_antisymm h (not_lt.1 hpos)

theorem ofMass_mass (x : LogReal) : ofMass (mass x) = x := by
  cases x using WithBot.recBotCoe with
  | bot => simp [ofMass]
  | coe x => rw [mass_coe, ofMass, if_pos (ExpLog.exp_pos x), ExpLog.log_exp]

theorem mass_injective : Function.Injective mass := fun x y h => by
  rw [← ofMass_mass x, h, ofMass_mass]

/-! ### Sums of masses -/

omit [ExpLog] in
theorem foldl_add_coe (ys : List ℝ) (a : ℝ) :
    (ys.map fun y : ℝ => (y : LogReal)).foldl (· + ·) (a : LogReal) = ((a + ys.sum : ℝ) : LogReal) := by
  induction ys generalizing a with
  | nil => simp
  | cons y ys ih =>
    rw [List.map_cons, List.foldl_cons, ← WithBot.coe_add, ih, List.sum_cons, add_assoc]

omit [ExpLog] in
theorem total_coe (ys : List ℝ) :
    total (ys.map fun y : ℝ => (y : LogReal)) = ((ys.sum : ℝ) : LogReal) := by
  have h := foldl_add_coe ys 0
  rwa [zero_add] at h

omit [ExpLog] in
theorem larger_eq_max (x y : LogReal) : larger x y = max x y := by
  rw [larger]
  split_ifs with hlt heq
  · exact (max_eq_right hlt.le).symm
  · exact (max_eq_left (not_lt.1 hlt)).symm
  · exact absurd (beq_self_eq_true x) heq

theorem largest_eq_foldr (xs : List LogReal) : largest xs = xs.foldr max ⊥ := by
  have hmax : (larger : LogReal → LogReal → LogReal) = max :=
    funext fun x => funext (larger_eq_max x)
  rw [largest, hmax, List.foldl_eq_foldr, negInf_eq]

theorem largest_le_iff {xs : List LogReal} {y : LogReal} : largest xs ≤ y ↔ ∀ x ∈ xs, x ≤ y := by
  rw [largest_eq_foldr]
  induction xs with
  | nil => simp
  | cons x xs ih => rw [List.foldr_cons, max_le_iff, ih, List.forall_mem_cons]

theorem le_largest {xs : List LogReal} {x : LogReal} (h : x ∈ xs) : x ≤ largest xs :=
  largest_le_iff.1 le_rfl x h

theorem largest_mem {xs : List LogReal} (h : xs ≠ []) : largest xs ∈ xs := by
  rw [largest_eq_foldr]
  induction xs with
  | nil => exact absurd rfl h
  | cons x xs ih =>
    rw [List.foldr_cons]
    rcases max_choice x (xs.foldr max ⊥) with hx | hxs
    · rw [hx]
      exact List.mem_cons_self
    · cases xs with
      | nil => simp
      | cons y ys =>
        rw [hxs]
        exact List.mem_cons_of_mem _ (ih (List.cons_ne_nil _ _))

/-- Factoring out a score that is not −∞ leaves the mass as it is. -/
theorem mass_coe_add_sub (t : ℝ) (x : LogReal) : mass t * mass (x - t) = mass x := by
  rw [← mass_add]
  congr 1
  cases x using WithBot.recBotCoe with
  | bot => simp [bot_sub]
  | coe x => rw [← coe_sub, ← WithBot.coe_add, add_sub_cancel]

/-- **The mass of a logarithmic sum is the sum of the masses.** -/
theorem mass_logSumExp (xs : List LogReal) : mass (logSumExp xs) = (xs.map mass).sum := by
  rw [logSumExp]
  split_ifs with htop
  · -- nothing is above −∞
    rw [impossible_iff] at htop
    have hall : ∀ y ∈ xs.map mass, y = 0 := by
      intro y hy
      obtain ⟨x, hx, rfl⟩ := List.mem_map.1 hy
      rw [le_bot_iff.1 ((le_largest hx).trans_eq htop), mass_bot]
    rw [negInf_eq, mass_bot, List.sum_eq_zero hall]
  · rw [impossible_iff] at htop
    obtain ⟨t, ht⟩ := WithBot.ne_bot_iff_exists.1 htop
    have hmap : xs.map (fun x => LogScale.exp (x - largest xs)) =
        (xs.map fun x => mass (x - t)).map fun y : ℝ => (y : LogReal) := by
      rw [List.map_map, ← ht]
      rfl
    have hnonneg : 0 ≤ (xs.map fun x => mass (x - t)).sum :=
      List.sum_nonneg (by simpa using fun x _ => mass_nonneg _)
    -- the largest score is taken off every score, and comes back as a factor of the sum
    calc mass (largest xs + LogScale.log (total (xs.map fun x => LogScale.exp (x - largest xs))))
      _ = mass t * (xs.map fun x => mass (x - t)).sum := by
        rw [hmap, total_coe, log_coe, mass_add, mass_ofMass hnonneg, ← ht]
      _ = (xs.map fun x => mass t * mass (x - t)).sum := by rw [List.sum_map_mul_left]
      _ = (xs.map mass).sum := by simp only [mass_coe_add_sub]

theorem logSumExp_perm {xs ys : List LogReal} (h : xs.Perm ys) : logSumExp xs = logSumExp ys := by
  apply mass_injective
  rw [mass_logSumExp, mass_logSumExp]
  exact (h.map mass).sum_eq

theorem mass_logAddExp (x y : LogReal) : mass (logAddExp x y) = mass x + mass y := by
  rw [logAddExp]
  split_ifs with htop
  · rw [impossible_iff, larger_eq_max, max_eq_bot] at htop
    rw [htop.1, htop.2]
    simp [negInf_eq]
  · rw [impossible_iff] at htop
    obtain ⟨t, ht⟩ := WithBot.ne_bot_iff_exists.1 htop
    have hnonneg : 0 ≤ mass (x - t) + mass (y - t) := add_nonneg (mass_nonneg _) (mass_nonneg _)
    rw [← ht, exp_eq, exp_eq, ← WithBot.coe_add, log_coe, mass_add, mass_ofMass hnonneg, mul_add,
      mass_coe_add_sub, mass_coe_add_sub]

end LogReal

end LogicalForms
