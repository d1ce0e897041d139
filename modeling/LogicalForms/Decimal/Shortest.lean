import LogicalForms.Decimal.Basic

/-!
# The shortest decimal of a double

A positive double is `mantissa · 2 ^ exponent`.  The reals that round to it form an interval that
reaches half-way to its neighbours on both sides; the ends belong to it when the mantissa is even.
`Binary.shortest` is the decimal in that interval with the fewest digits, and among those the one
nearest to the double; of two equally near ones it is the larger.

The search goes through the grids of multiples of `10 ^ k` from coarse to fine.  If a grid has a
point in the interval, so is one of the two grid points around the double itself, so only these are
tried.  All arithmetic is exact.
-/

namespace LogicalForms

/-- A positive number in binary. -/
structure Binary where
  /-- The significant bits. -/
  mantissa : Nat
  /-- The power of two they are multiplied with. -/
  exponent : Int
  /-- The next smaller double is only half as far away as the next larger one. -/
  narrowBelow : Bool

namespace Binary

/-- Numerator and denominator of `base ^ exponent`. -/
def power (base : Nat) : Int → Nat × Nat
  | .ofNat n => (base.pow n, 1)
  | .negSucc n => (1, base.pow (n + 1))

/-- The number of steps of `10 ^ k` in a quarter unit of the last binary place, as a fraction. -/
def quarterUnit (b : Binary) (k : Int) : Nat × Nat :=
  let (n₂, d₂) := power 2 (b.exponent - 2)
  let (n₁₀, d₁₀) := power 10 (-k)
  (n₂ * n₁₀, d₂ * d₁₀)

/-- The multiple of `10 ^ k` that rounds to the number and is nearest to it, if there is one. -/
def onGrid? (b : Binary) (k : Int) : Option Nat :=
  let (num, den) := b.quarterUnit k
  let value := 4 * b.mantissa * num
  let low := (4 * b.mantissa - if b.narrowBelow then 1 else 2) * num
  let high := (4 * b.mantissa + 2) * num
  let closed := b.mantissa % 2 = 0
  let below := value / den
  let above := below + 1
  let belowFits := if closed then low ≤ below * den else low < below * den
  let aboveFits := if closed then above * den ≤ high else above * den < high
  if belowFits ∧ aboveFits then
    some (if 2 * value < (below + above) * den then below else above)
  else if belowFits then some below
  else if aboveFits then some above
  else none

/-- The first grid with a point that rounds to the number, from `10 ^ k` downwards. -/
def firstGrid (b : Binary) (k : Int) : (steps : Nat) → Decimal
  | 0 => ⟨0, 0⟩
  | steps + 1 =>
    match b.onGrid? k with
    | some d => ⟨d, k⟩
    | none => b.firstGrid (k - 1) steps

/-- The shortest decimal that rounds to the number.  The search starts at a power of ten above it
and needs at most seventeen digits, so twenty steps are enough. -/
def shortest (b : Binary) : Decimal :=
  b.firstGrid (((b.mantissa.log2 : Int) + b.exponent) * 30103 / 100000 + 1) 20

/-- The size of a finite double other than zero, given by its bits. -/
def ofBits (bits : Nat) : Binary :=
  let fraction : Nat := bits % Nat.pow 2 52
  let scale : Nat := bits / Nat.pow 2 52 % Nat.pow 2 11
  if scale = 0 then ⟨fraction, -1074, false⟩
  else ⟨Nat.pow 2 52 + fraction, scale - 1075, fraction = 0 && scale ≠ 1⟩

end Binary

/-- The text of a double: its shortest decimal, with a minus sign if it is negative (also for the
negative zero). -/
def Decimal.ofFloat (x : Float) : String :=
  if x.isNaN then "NaN"
  else
    let bits := x.toBits.toNat
    let sign := if bits / Nat.pow 2 63 = 1 then "-" else ""
    sign ++
      if x.isInf then "inf"
      else if bits % Nat.pow 2 63 = 0 then "0"
      else (Binary.ofBits bits).shortest.render

end LogicalForms
