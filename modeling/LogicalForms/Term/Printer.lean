import LogicalForms.Sexp.Basic
import LogicalForms.Term.Basic

/-!
# Printing terms

A term is written as a nested expression (`Term.toSexp`), whose text is `Term.render`.  Variables
are numbered in the order in which they are met.  A lambda gives its argument a new number, also
when the same variable has one already, and declares it as `$n:type`; a variable without a number is
free, and its first leaf declares it in the same way.  Every other leaf is written `$n`.
-/

namespace LogicalForms

/-- The numbers given to variables so far. -/
structure Numbering where
  /-- The number of each variable, the latest first. -/
  numbers : List (Var × Nat)
  /-- The next number. -/
  next : Nat

namespace Numbering

/-- No variable has a number. -/
def empty : Numbering := ⟨[], 0⟩

/-- The number of a variable. -/
def number? (ν : Numbering) (v : Var) : Option Nat := ν.numbers.lookup v

/-- Gives `v` the next number. -/
def bind (ν : Numbering) (v : Var) : Numbering := ⟨(v, ν.next) :: ν.numbers, ν.next + 1⟩

end Numbering

/-- The declaration of a variable by number and type. -/
def Var.declaration (v : Var) (n : Nat) : String := s!"${n}:" ++ v.ty.tag

namespace Term

mutual

/-- The expression that a term is written as, and the numbering after it. -/
def toSexpFrom (ν : Numbering) : Term → Sexp × Numbering
  | .const c => (.atom c.render, ν)
  | .var v =>
    match ν.number? v with
    | some n => (.atom s!"${n}", ν)
    | none => (.atom (v.declaration ν.next), ν.bind v)
  | .lam v body =>
    let (e, ν') := body.toSexpFrom (ν.bind v)
    (.list [.atom "lambda", .atom (v.declaration ν.next), e], ν')
  | .lit p as =>
    let (e, ν) := p.toSexpFrom ν
    let (es, ν) := allToSexpFrom ν as
    (.list (e :: es), ν)

/-- The expressions that the terms are written as one after the other. -/
def allToSexpFrom (ν : Numbering) : List Term → List Sexp × Numbering
  | [] => ([], ν)
  | t :: ts =>
    let (e, ν) := t.toSexpFrom ν
    let (es, ν) := allToSexpFrom ν ts
    (e :: es, ν)

end

/-- The expression that a term is written as. -/
def toSexp (t : Term) : Sexp := (t.toSexpFrom .empty).1

/-- The text of a term. -/
def render (t : Term) : String := t.toSexp.render

end Term

end LogicalForms
