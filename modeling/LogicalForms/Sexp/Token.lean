import LogicalForms.Text.Space

/-!
# Tokens of nested expressions

A text splits into parentheses and atoms, where an atom is a maximal run of characters that are
neither parentheses nor white space.  Blanks belong to no token.  White space that is not a blank
cannot stand anywhere and becomes a token of its own, which no expression contains.
-/

namespace LogicalForms.Sexp

open Text

/-- The tokens of nested expressions. -/
inductive Token where
  /-- An opening parenthesis. -/
  | opening
  /-- A closing parenthesis. -/
  | closing
  /-- A word. -/
  | atom (chars : List Char)
  /-- White space that separates nothing. -/
  | stray (char : Char)
  deriving DecidableEq

/-- The characters of atoms. -/
def isAtomChar (c : Char) : Bool := !(isSpace c || c == '(' || c == ')')

/-- Puts a character of an atom, at byte `offset`, before the tokens that follow it.  It joins an
atom that starts right behind it. -/
def consAtomChar (offset : Nat) (c : Char) : List (Nat × Token) → List (Nat × Token)
  | (next, .atom chars) :: rest =>
    if next = offset + c.utf8Size then (offset, .atom (c :: chars)) :: rest
    else (offset, .atom [c]) :: (next, .atom chars) :: rest
  | rest => (offset, .atom [c]) :: rest

/-- The tokens of a text that starts at byte `offset`, each with the offset of its first byte. -/
def tokens (offset : Nat) : List Char → List (Nat × Token)
  | [] => []
  | c :: cs =>
    let rest := tokens (offset + c.utf8Size) cs
    if isBlank c then rest
    else if c = '(' then (offset, .opening) :: rest
    else if c = ')' then (offset, .closing) :: rest
    else if isSpace c then (offset, .stray c) :: rest
    else consAtomChar offset c rest

end LogicalForms.Sexp
