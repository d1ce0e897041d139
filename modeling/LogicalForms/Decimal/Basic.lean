/-!
# Decimals

A `Decimal` is a natural number times a power of ten.  `Decimal.render` writes it positionally,
never with an exponent: `25 · 10 ^ (-2)` is `0.25` and `3 · 10 ^ 2` is `300`.
-/

namespace LogicalForms

/-- The number `coefficient · 10 ^ exponent`. -/
structure Decimal where
  /-- The decimal digits, read as one number. -/
  coefficient : Nat
  /-- The power of ten they are multiplied with. -/
  exponent : Int
  deriving DecidableEq

namespace Decimal

/-- The digits with a point before the last `places` of them, and a zero before a leading point. -/
def withPoint (places : Nat) (digits : List Char) : List Char :=
  let padded := List.replicate (places + 1 - digits.length) '0' ++ digits
  let whole := padded.length - places
  padded.take whole ++ '.' :: padded.drop whole

/-- The number in positional form. -/
def render (d : Decimal) : String :=
  let digits := Nat.toDigits 10 d.coefficient
  match d.exponent with
  | .ofNat n => String.ofList (digits ++ List.replicate n '0')
  | .negSucc n => String.ofList (withPoint (n + 1) digits)

end Decimal

end LogicalForms
