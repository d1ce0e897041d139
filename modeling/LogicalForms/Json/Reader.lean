import LogicalForms.Json.Basic

/-!
# Reading configuration texts

`Json.read?` reads a text that is one JSON value with white space around it.  It is strict: numbers
have no leading zeros and no bare points, strings hold no control characters, and lists have no
trailing commas.
-/

namespace LogicalForms.Json

/-- Removes the white space at the start: spaces, tabs, newlines and carriage returns. -/
def skipBlanks (s : List Char) : List Char :=
  s.dropWhile fun c => c == ' ' || c == '\t' || c == '\n' || c == '\r'

/-! ### Strings -/

/-- The value of a hexadecimal digit. -/
def hexDigit? (c : Char) : Option Nat :=
  if '0' ≤ c ∧ c ≤ '9' then some (c.toNat - 0x30)
  else if 'a' ≤ c ∧ c ≤ 'f' then some (c.toNat - 0x61 + 10)
  else if 'A' ≤ c ∧ c ≤ 'F' then some (c.toNat - 0x41 + 10)
  else none

/-- The value of four hexadecimal digits. -/
def hexCode? (a b c d : Char) : Option Nat := do
  return ((← hexDigit? a) * 16 + (← hexDigit? b)) * 256 + (← hexDigit? c) * 16 + (← hexDigit? d)

/-- The character that a backslash and `c` stand for, `u` apart. -/
def escape? (c : Char) : Option Char :=
  match c with
  | '"' => some '"'
  | '\\' => some '\\'
  | '/' => some '/'
  | 'b' => some '\x08'
  | 'f' => some '\x0c'
  | 'n' => some '\n'
  | 'r' => some '\r'
  | 't' => some '\t'
  | _ => none

/-- The characters of a string so far. -/
structure StringProgress where
  /-- The characters in reverse. -/
  chars : List Char
  /-- The first half of a surrogate pair, which waits for the second. -/
  half : Option Nat
  /-- Every escape names a character. -/
  sound : Bool

namespace StringProgress

/-- Adds a character. -/
def add (p : StringProgress) (c : Char) : StringProgress :=
  ⟨c :: p.chars, none, p.sound && p.half.isNone⟩

/-- Adds the code unit of a `\u` escape. -/
def addUnit (p : StringProgress) (n : Nat) : StringProgress :=
  if 0xD800 ≤ n && n < 0xDC00 then ⟨p.chars, some n, p.sound && p.half.isNone⟩
  else if 0xDC00 ≤ n && n < 0xE000 then
    match p.half with
    | some h =>
      ⟨Char.ofNat (0x10000 + (h - 0xD800) * 0x400 + (n - 0xDC00)) :: p.chars, none, p.sound⟩
    | none => { p with sound := false }
  else p.add (Char.ofNat n)

/-- The string, if all its escapes name characters. -/
def finish (p : StringProgress) : Option String :=
  if p.sound && p.half.isNone then some (String.ofList p.chars.reverse) else none

end StringProgress

/-- Reads a string behind its opening quote. -/
def readString? (p : StringProgress) : List Char → Option (Option String × List Char)
  | [] => none
  | '"' :: s => some (p.finish, s)
  | '\\' :: 'u' :: a :: b :: c :: d :: s =>
    match hexCode? a b c d with
    | some n => readString? (p.addUnit n) s
    | none => none
  | '\\' :: c :: s =>
    match escape? c with
    | some c => readString? (p.add c) s
    | none => none
  | c :: s => if c.toNat < 0x20 then none else readString? (p.add c) s

/-! ### Numbers -/

/-- The decimal digits at the start, and what follows them. -/
def spanDigits (s : List Char) : List Char × List Char :=
  (s.takeWhile Char.isDigit, s.dropWhile Char.isDigit)

/-- The value of decimal digits. -/
def digitsValue (ds : List Char) : Nat := ds.foldl (fun n c => 10 * n + (c.toNat - 0x30)) 0

/-- The whole part of a number: one zero, or digits that start with another one. -/
def readWhole? (s : List Char) : Option (List Char × List Char) :=
  match spanDigits s with
  | ([], _) => none
  | ('0' :: _ :: _, _) => none
  | (ds, s) => some (ds, s)

/-- The digits behind a point, if there is one. -/
def readFraction? : List Char → Option (List Char × List Char)
  | '.' :: s =>
    match spanDigits s with
    | ([], _) => none
    | (ds, s) => some (ds, s)
  | s => some ([], s)

/-- The exponent behind a letter `e`, if there is one. -/
def readExponent? : List Char → Option (Option Int × List Char)
  | c :: s =>
    if c == 'e' || c == 'E' then
      let (negative, s) := match s with
        | '-' :: s => (true, s)
        | '+' :: s => (false, s)
        | s => (false, s)
      match spanDigits s with
      | ([], _) => none
      | (ds, s) => some (some (if negative then -digitsValue ds else digitsValue ds), s)
    else some (none, c :: s)
  | [] => some (none, [])

/-- Reads a number. -/
def readNumber? (s : List Char) : Option (Numeral × List Char) := do
  let (negative, s) := match s with
    | '-' :: s => (true, s)
    | s => (false, s)
  let (whole, s) ← readWhole? s
  let (fraction, s) ← readFraction? s
  let (exponent, s) ← readExponent? s
  return (⟨negative, digitsValue (whole ++ fraction), exponent.getD 0 - fraction.length,
    fraction.isEmpty && exponent.isNone⟩, s)

/-! ### Values -/

mutual

/-- Reads a value at the start of the text, with at most `depth` readers waiting for each other. -/
def readValue? : (depth : Nat) → List Char → Option (Json × List Char)
  | 0, _ => none
  | depth + 1, s =>
    match skipBlanks s with
    | 'n' :: 'u' :: 'l' :: 'l' :: s => some (.null, s)
    | 't' :: 'r' :: 'u' :: 'e' :: s => some (.bool true, s)
    | 'f' :: 'a' :: 'l' :: 's' :: 'e' :: s => some (.bool false, s)
    | '"' :: s => (readString? ⟨[], none, true⟩ s).map fun (x, s) => (.string x, s)
    | '[' :: s =>
      match skipBlanks s with
      | ']' :: s => some (.array [], s)
      | s => (readItems? depth s).map fun (xs, s) => (.array xs, s)
    | '{' :: s =>
      match skipBlanks s with
      | '}' :: s => some (.object [], s)
      | s => (readFields? depth s).map fun (xs, s) => (.object xs, s)
    | s => (readNumber? s).map fun (n, s) => (.number n, s)

/-- Reads the items of an array up to its closing bracket. -/
def readItems? : (depth : Nat) → List Char → Option (List Json × List Char)
  | 0, _ => none
  | depth + 1, s => do
    let (x, s) ← readValue? depth s
    match skipBlanks s with
    | ',' :: s =>
      let (xs, s) ← readItems? depth s
      return (x :: xs, s)
    | ']' :: s => return ([x], s)
    | _ => none

/-- Reads the fields of an object up to its closing brace. -/
def readFields? : (depth : Nat) → List Char → Option (List (Option String × Json) × List Char)
  | 0, _ => none
  | depth + 1, s =>
    match skipBlanks s with
    | '"' :: s => do
      let (key, s) ← readString? ⟨[], none, true⟩ s
      match skipBlanks s with
      | ':' :: s =>
        let (x, s) ← readValue? depth s
        match skipBlanks s with
        | ',' :: s =>
          let (xs, s) ← readFields? depth s
          return ((key, x) :: xs, s)
        | '}' :: s => return ([(key, x)], s)
        | _ => none
      | _ => none
    | _ => none

end

/-- Reads a text that is one value.  Every reader that waits has read a character, so the readers
cannot be more than the text is long. -/
def read? (text : String) : Option Json :=
  let s := text.toList
  match readValue? (2 * s.length + 2) s with
  | some (x, rest) => if (skipBlanks rest).isEmpty then some x else none
  | none => none

end LogicalForms.Json
