import LogicalForms.Ty.Printer

/-!
# Logical forms

A `Term` is a constant, a variable, a lambda abstraction, or a literal — the application of a
predicate to a list of arguments.

* Constants are equal when they share name and type.
* A variable has an identity and a type.  It has no name, so that renaming never changes which
  binder it belongs to.
* Terms are compared structurally: two lambdas that bind different variables differ, even if one
  is the other up to renaming.
* `Term.ind` is the induction principle whose hypothesis covers every argument of a literal.
-/

namespace LogicalForms

/-- A named symbol with a type. -/
structure Constant where
  /-- The name of the symbol. -/
  name : String
  /-- Its type. -/
  ty : Ty
  deriving DecidableEq, Inhabited

/-- A constant is written as its name and its type tag, with a colon in between. -/
def Constant.render (c : Constant) : String := c.name ++ ":" ++ c.ty.tag

/-- A variable, which is its identity and not a name. -/
structure Var where
  /-- What tells it from other variables. -/
  id : Nat
  /-- Its type. -/
  ty : Ty
  deriving DecidableEq, Inhabited

/-- Logical forms. -/
inductive Term where
  /-- A symbol. -/
  | const (c : Constant)
  /-- A reference to a variable. -/
  | var (v : Var)
  /-- The function that maps `argument` to `body`. -/
  | lam (argument : Var) (body : Term)
  /-- `predicate` applied to `arguments`. -/
  | lit (predicate : Term) (arguments : List Term)
  deriving Inhabited

namespace Term

mutual

/-- Decides equality of terms. -/
def decEq : (s t : Term) → Decidable (s = t)
  | .const c, .const d =>
    if h : c = d then isTrue (by rw [h]) else isFalse fun e => h (Term.const.inj e)
  | .var v, .var w =>
    if h : v = w then isTrue (by rw [h]) else isFalse fun e => h (Term.var.inj e)
  | .lam v s, .lam w t =>
    if h : v = w then
      match decEq s t with
      | isTrue h' => isTrue (by rw [h, h'])
      | isFalse h' => isFalse fun e => h' (Term.lam.inj e).2
    else isFalse fun e => h (Term.lam.inj e).1
  | .lit p as, .lit q bs =>
    match decEq p q, decEqList as bs with
    | isTrue h, isTrue h' => isTrue (by rw [h, h'])
    | isFalse h, _ => isFalse fun e => h (Term.lit.inj e).1
    | _, isFalse h => isFalse fun e => h (Term.lit.inj e).2
  | .const _, .var _ | .const _, .lam .. | .const _, .lit ..
  | .var _, .const _ | .var _, .lam .. | .var _, .lit ..
  | .lam .., .const _ | .lam .., .var _ | .lam .., .lit ..
  | .lit .., .const _ | .lit .., .var _ | .lit .., .lam .. =>
    isFalse nofun

/-- Decides equality of lists of terms. -/
def decEqList : (ss ts : List Term) → Decidable (ss = ts)
  | [], [] => isTrue rfl
  | s :: ss, t :: ts =>
    match decEq s t, decEqList ss ts with
    | isTrue h, isTrue h' => isTrue (by rw [h, h'])
    | isFalse h, _ => isFalse fun e => h (List.cons.inj e).1
    | _, isFalse h => isFalse fun e => h (List.cons.inj e).2
  | [], _ :: _ | _ :: _, [] => isFalse nofun

end

instance instDecidableEq : DecidableEq Term := decEq

/-- Induction over terms, with an induction hypothesis for each argument of a literal. -/
@[elab_as_elim, induction_eliminator]
theorem ind {motive : Term → Prop} (const : ∀ c, motive (.const c))
    (var : ∀ v, motive (.var v))
    (lam : ∀ v body, motive body → motive (.lam v body))
    (lit : ∀ p as, motive p → (∀ a ∈ as, motive a) → motive (.lit p as))
    (t : Term) : motive t :=
  Term.rec (motive_2 := fun as => ∀ a ∈ as, motive a) const var lam lit
    (by simp) (fun a as ha has b hb => by
      rcases List.mem_cons.1 hb with rfl | hb
      · exact ha
      · exact has b hb) t

end Term

end LogicalForms
