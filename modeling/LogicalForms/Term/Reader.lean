import LogicalForms.Sexp.Reader
import LogicalForms.Term.Basic
import LogicalForms.Term.Error
import LogicalForms.Text.Pointer
import LogicalForms.Text.Split
import LogicalForms.Ty.Reader

/-!
# Reading terms

A term is read from one nested expression:

* an atom that starts with `$` refers to a variable by name, up to its first colon;
* any other atom is a constant: a name and a type tag, with the last colon in between;
* `(lambda $name:type body)` binds a name in its body;
* any other list of at least two members is a literal, a predicate with its arguments.

What the names stand for is the state of the reader (`Scope`).  Every name has a stack of the
variables that the lambdas around the reader bind by it: a lambda pushes its variable before its
body and pops it behind it.  A name with nothing on its stack is free.  Its first reference gives
its type, and all its free references in the text are one variable.
-/

namespace LogicalForms

open Text

/-- The free variables met so far, and the identity of the next new variable. -/
structure Supply where
  /-- The free variables by name. -/
  free : List (String × Var)
  /-- An identity that no variable has yet. -/
  next : Nat

/-- For each name the variables that it is bound to, the innermost first.  A name keeps its stack
when nothing is left on it. -/
abbrev Stacks := List (String × List Var)

namespace Stacks

/-- The stack of a name. -/
def get (table : Stacks) (name : String) : List Var := (table.lookup name).getD []

/-- Puts a variable on the stack of a name. -/
def push (name : String) (v : Var) : Stacks → Stacks
  | [] => [(name, [v])]
  | (n, vs) :: table =>
    if name = n then (n, v :: vs) :: table else (n, vs) :: push name v table

/-- Takes the innermost variable off the stack of a name. -/
def pop (name : String) : Stacks → Stacks
  | [] => []
  | (n, vs) :: table =>
    if name = n then (n, vs.tail) :: table else (n, vs) :: pop name table

end Stacks

/-- The variables that names stand for, and the identity of the next new variable. -/
structure Scope extends Supply where
  /-- The bound variables by name. -/
  bound : Stacks

/-- Readers that bind names and make new variables. -/
abbrev ScopedReader := StateT Scope (Except ReadError)

/-- A type tag by itself. -/
def Ty.read (tag : List Char) : Except ReadError Ty :=
  match Ty.ofTag? tag with
  | some ty => .ok ty
  | none => .error (.badType (String.ofList tag))

namespace Constant

/-- A constant without white space around it: a name that is not empty and does not start with
`$`, then the last colon, then a type tag. -/
def ofAtom (atom : String) : Except ReadError Constant :=
  match splitAtLast ':' atom.toList with
  | some (c :: name, tag) =>
    if c = '$' then .error (.badConstant atom)
    else (Ty.read tag).map (⟨String.ofList (c :: name), ·⟩)
  | _ => .error (.badConstant atom)

/-- A constant with white space around it. -/
def read (text : String) : Except ReadError Constant :=
  ofAtom (String.ofList (trim text.toList))

end Constant

/-- The name and the type in `$name:type`, if the text has that form. -/
def declaration? (text : String) : Option (String × List Char) :=
  match splitAtFirst ':' text.toList with
  | some ('$' :: name, tag) => some (String.ofList ('$' :: name), tag)
  | _ => none

namespace ScopedReader

/-- A new variable of that type. -/
def newVar (ty : Ty) : ScopedReader Var :=
  modifyGet fun s => (⟨s.next, ty⟩, { s with next := s.next + 1 })

/-- Binds a name to a variable. -/
def push (name : String) (v : Var) : ScopedReader Unit :=
  modify fun s => { s with bound := Stacks.push name v s.bound }

/-- Undoes the innermost binding of a name. -/
def pop (name : String) : ScopedReader Unit :=
  modify fun s => { s with bound := Stacks.pop name s.bound }

/-- The variable that an atom refers to.  The innermost binder of the name comes first and a known
free name second; then the type in the atom is not looked at. -/
def reference (atom : String) : ScopedReader Var := do
  let (name, tag) := match splitAtFirst ':' atom.toList with
    | some (name, tag) => (String.ofList name, some tag)
    | none => (atom, none)
  match (Stacks.get (← get).bound name).head? with
  | some v => return v
  | none =>
    match (← get).free.lookup name with
    | some v => return v
    | none =>
      match tag with
      | some tag =>
        let v ← newVar (← Ty.read tag)
        modify fun s => { s with free := (name, v) :: s.free }
        return v
      | none => throw (.unbound atom)

mutual

/-- The term that an expression stands for. -/
def term : Sexp → ScopedReader Term
  | .atom text =>
    if text.toList.head? = some '$' then return .var (← reference text)
    else return .const (← Constant.ofAtom text)
  | .list [.atom "lambda", .atom decl, body] => do
    match declaration? decl with
    | some (name, tag) =>
      let v ← newVar (← Ty.read tag)
      push name v
      let b ← term body
      pop name
      return .lam v b
    | none => throw (.badLambda (Sexp.list [.atom "lambda", .atom decl, body]).render)
  | .list (.atom "lambda" :: es) => throw (.badLambda (Sexp.list (.atom "lambda" :: es)).render)
  | .list (p :: a :: as) => do
    let p ← term p
    return .lit p (← terms (a :: as))
  | .list es => throw (.noArguments (Sexp.list es).render)

/-- The terms that expressions stand for, in order. -/
def terms : List Sexp → ScopedReader (List Term)
  | [] => return []
  | e :: es => do
    let t ← term e
    return t :: (← terms es)

end

end ScopedReader

/-- The expressions of a text, or a report that points at the place where it cannot be read. -/
def Sexp.read (text : String) : Except ReadError (List Sexp) :=
  match Sexp.readAll text.toList with
  | .ok es => .ok es
  | .error offset => .error (.unreadable (pointAt text offset))

namespace Term

/-- Reads a text that is one term.  Its variables get the identities from `next` on; the result
tells the first identity that is still free. -/
def readFrom (next : Nat) (text : String) : Except ReadError (Term × Nat) := do
  match ← Sexp.read text with
  | [e] =>
    let (t, scope) ← (ScopedReader.term e).run ⟨⟨[], next⟩, []⟩
    return (t, scope.next)
  | es => throw (.notSingle es.length)

/-- Reads a text that is one term. -/
def read (text : String) : Except ReadError Term := (readFrom 0 text).map Prod.fst

end Term

end LogicalForms
