import LogicalForms.Text.Alphanumeric
import LogicalForms.Ty.Basic

/-!
# Reading type tags

A type tag is either a name — a non-empty run of alphanumeric characters, `_`, `[` and `]` — or a
function type `<arg,res>` of two type tags, with nothing in between.  `Ty.ofTag?` reads a text that
is one type tag from its first character to its last.
-/

namespace LogicalForms.Ty

open Text

/-- The characters of the name of an atomic type. -/
def isNameChar (c : Char) : Bool :=
  isAlphanumeric c || c == '_' || c == '[' || c == ']'

/-- The longest name at the start of the text, if it is not empty, and what follows it. -/
def readName? (s : List Char) : Option (String × List Char) :=
  match s.takeWhile isNameChar with
  | [] => none
  | name => some (String.ofList name, s.dropWhile isNameChar)

/-- Reads one type tag at the start of the text, with at most `depth` tags inside each other, and
gives what follows it. -/
def readAtDepth? : (depth : Nat) → List Char → Option (Ty × List Char)
  | 0, _ => none
  | depth + 1, '<' :: s =>
    match readAtDepth? depth s with
    | some (arg, ',' :: s) =>
      match readAtDepth? depth s with
      | some (res, '>' :: s) => some (.arrow arg res, s)
      | _ => none
    | _ => none
  | _ + 1, s => (readName? s).map fun (name, rest) => (.atom name, rest)

/-- Reads a text that is a single type tag.  Tags cannot be nested deeper than the text is long. -/
def ofTag? (s : List Char) : Option Ty :=
  match readAtDepth? (s.length + 1) s with
  | some (ty, []) => some ty
  | _ => none

end LogicalForms.Ty
