/-!
# Configuration values

`Json` is the data format of configuration texts.  A number keeps its decimal form, so that whoever
uses it decides how to read it.  A string is `none` when its escapes name half of a surrogate pair,
for which there is no character; such a string can only be passed over.
-/

namespace LogicalForms

/-- A number as it was written: `± digits · 10 ^ exponent`. -/
structure Numeral where
  /-- There is a minus sign. -/
  negative : Bool
  /-- The decimal digits, read as one number. -/
  digits : Nat
  /-- The power of ten they are multiplied with. -/
  exponent : Int
  /-- There is neither a fraction nor an exponent. -/
  whole : Bool
  deriving DecidableEq, Inhabited

/-- Configuration values. -/
inductive Json where
  | null
  | bool (b : Bool)
  | number (n : Numeral)
  | string (s : Option String)
  | array (items : List Json)
  | object (fields : List (Option String × Json))
  deriving Inhabited

namespace Numeral

/-- The number as a count of 64 bits.  A number with a minus sign, a fraction or an exponent is not
a count. -/
def toUInt64? (n : Numeral) : Option UInt64 :=
  if n.whole && !n.negative && n.digits < UInt64.size then some (.ofNat n.digits) else none

/-- The double nearest to the number, if it lies in the range of the doubles. -/
def toFloat? (n : Numeral) : Option Float :=
  let sign (x : Float) := if n.negative then -x else x
  let magnitude := (Nat.toDigits 10 n.digits).length + n.exponent
  if n.digits = 0 ∨ magnitude < -400 then some (sign 0)
  else if 400 < magnitude then none
  else
    let x := match n.exponent with
      | .ofNat e => Float.ofScientific n.digits false e
      | .negSucc e => Float.ofScientific n.digits true (e + 1)
    if x.isInf then none else some (sign x)

end Numeral

end LogicalForms
