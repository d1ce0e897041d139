import LogicalForms.Decimal.Shortest
import LogicalForms.Json.Basic

/-!
# Writing configuration texts

`Json.render` writes a value without white space.  Quotes, backslashes and control characters in
strings are escaped; everything else stands for itself.
-/

namespace LogicalForms

/-- The number in digits, with an exponent if it has one. -/
def Numeral.render (n : Numeral) : String :=
  (if n.negative then "-" else "") ++ toString n.digits ++
    (if n.exponent = 0 then "" else "e" ++ toString n.exponent)

/-- The numeral of a finite double: its shortest decimal. -/
def Numeral.ofFloat (x : Float) : Numeral :=
  let bits := x.toBits.toNat
  let negative := bits / Nat.pow 2 63 = 1
  if bits % Nat.pow 2 63 = 0 then ⟨negative, 0, 0, false⟩
  else
    let d := (Binary.ofBits bits).shortest
    ⟨negative, d.coefficient, d.exponent, false⟩

/-- The numeral of a count. -/
def Numeral.ofNat (n : Nat) : Numeral := ⟨false, n, 0, true⟩

namespace Json

/-- A character inside a string. -/
def renderChar (c : Char) : String :=
  match c with
  | '"' => "\\\""
  | '\\' => "\\\\"
  | '\n' => "\\n"
  | '\r' => "\\r"
  | '\t' => "\\t"
  | c =>
    if c.toNat < 0x20 then
      "\\u00" ++ String.ofList [Nat.digitChar (c.toNat / 16), Nat.digitChar (c.toNat % 16)]
    else String.singleton c

/-- A string in quotes. -/
def renderString (s : String) : String := "\"" ++ String.join (s.toList.map renderChar) ++ "\""

mutual

/-- The text of a value. -/
def render : Json → String
  | .null => "null"
  | .bool b => if b then "true" else "false"
  | .number n => n.render
  | .string s => renderString (s.getD "")
  | .array [] => "[]"
  | .array (x :: xs) => "[" ++ render x ++ renderItems xs ++ "]"
  | .object [] => "\x7b\x7d"
  | .object ((key, x) :: fields) =>
    "\x7b" ++ renderString (key.getD "") ++ ":" ++ render x ++ renderFields fields ++ "\x7d"

/-- The further items of an array, each after a comma. -/
def renderItems : List Json → String
  | [] => ""
  | x :: xs => "," ++ render x ++ renderItems xs

/-- The further fields of an object, each after a comma. -/
def renderFields : List (Option String × Json) → String
  | [] => ""
  | (key, x) :: fields =>
    "," ++ renderString (key.getD "") ++ ":" ++ render x ++ renderFields fields

end

end Json

end LogicalForms
