import LogicalForms.Sexp.Basic
import LogicalForms.Sexp.Token

/-!
# Reading nested expressions

`Sexp.readAll` reads a text that is a sequence of expressions with blanks around them.  It keeps the
lists that are still open on a stack.  When the text cannot be read to its end, the result is the
byte offset at which the longest readable sequence of expressions ends: the offset of the first
token that cannot continue it, or of the outermost parenthesis when that token lies in an open list.
-/

namespace LogicalForms.Sexp

/-- A list that has been opened: the offset of its parenthesis, and its members so far, the last
one first. -/
structure Frame where
  /-- The byte offset of the opening parenthesis. -/
  offset : Nat
  /-- The members read so far, in reverse. -/
  items : List Sexp

/-- The reader between two tokens. -/
structure Progress where
  /-- The complete expressions, in reverse. -/
  done : List Sexp
  /-- The open lists, the innermost first. -/
  frames : List Frame

namespace Progress

/-- Adds an expression to the innermost open list, or to the complete expressions. -/
def add (e : Sexp) (p : Progress) : Progress :=
  match p.frames with
  | [] => { p with done := e :: p.done }
  | f :: fs => { p with frames := { f with items := e :: f.items } :: fs }

/-- The offset of the outermost list that is still open. -/
def outermost? (p : Progress) : Option Nat := p.frames.getLast?.map Frame.offset

/-- Reads one token at byte `offset`. -/
def step (p : Progress) (offset : Nat) : Token → Except Nat Progress
  | .opening => .ok { p with frames := ⟨offset, []⟩ :: p.frames }
  | .closing =>
    match p.frames with
    | [] => .error offset
    | f :: fs => .ok (add (.list f.items.reverse) { p with frames := fs })
  | .atom chars => .ok (p.add (.atom (String.ofList chars)))
  | .stray _ => .error (p.outermost?.getD offset)

/-- The expressions read, if no list is open at the end of the text. -/
def finish (p : Progress) : Except Nat (List Sexp) :=
  match p.outermost? with
  | none => .ok p.done.reverse
  | some offset => .error offset

/-- Reads tokens up to the end of the text. -/
def run (p : Progress) : List (Nat × Token) → Except Nat (List Sexp)
  | [] => p.finish
  | (offset, t) :: ts =>
    match p.step offset t with
    | .ok p => p.run ts
    | .error place => .error place

end Progress

/-- The expressions of a text, or the byte offset at which its longest readable part ends. -/
def readAll (s : List Char) : Except Nat (List Sexp) := Progress.run ⟨[], []⟩ (tokens 0 s)

end LogicalForms.Sexp
