import LogicalForms.Term.Basic

/-!
# Variables of a term

* `Term.mentions` — whether some leaf of a term refers to a variable.
* `Term.vars` — the variables of a term in order of first appearance, where a binder comes
  before its body and a predicate before its arguments.
* `Term.vacuous` — the variables that some lambda binds and that no leaf behind the last such lambda
  refers to, in that order.
-/

namespace LogicalForms.Term

mutual

/-- Some leaf of the term refers to `x`. -/
def mentions (x : Var) : Term → Bool
  | .const _ => false
  | .var v => v = x
  | .lam _ body => body.mentions x
  | .lit p as => p.mentions x || anyMentions x as

/-- Some leaf of one of the terms refers to `x`. -/
def anyMentions (x : Var) : List Term → Bool
  | [] => false
  | t :: ts => t.mentions x || anyMentions x ts

end

theorem anyMentions_eq (x : Var) (ts : List Term) : anyMentions x ts = ts.any (mentions x) := by
  induction ts with
  | nil => rfl
  | cons t ts ih => simp [anyMentions, ih]

@[simp] theorem mentions_const (x : Var) (c : Constant) : (const c).mentions x = false := rfl

@[simp] theorem mentions_var (x v : Var) : (var v).mentions x = decide (v = x) := rfl

@[simp] theorem mentions_lam (x v : Var) (t : Term) : (lam v t).mentions x = t.mentions x := rfl

@[simp] theorem mentions_lit (x : Var) (p : Term) (as : List Term) :
    (lit p as).mentions x = (p.mentions x || as.any (mentions x)) := by
  rw [← anyMentions_eq]
  rfl

mutual

/-- Every occurrence of a variable in the term, in binders and in leaves. -/
def occurrences : Term → List Var
  | .const _ => []
  | .var v => [v]
  | .lam v body => v :: body.occurrences
  | .lit p as => p.occurrences ++ allOccurrences as

/-- Every occurrence of a variable in the terms. -/
def allOccurrences : List Term → List Var
  | [] => []
  | t :: ts => t.occurrences ++ allOccurrences ts

end

/-- The variables of a term in order of first appearance. -/
def vars (t : Term) : List Var := t.occurrences.eraseDups

mutual

/-- One pass over the term that keeps the variables bound so far and not referred to since. -/
def vacuousAfter (vacuous : List Var) : Term → List Var
  | .const _ => vacuous
  | .var v => vacuous.filter (· ≠ v)
  | .lam v body => vacuousAfter (if v ∈ vacuous then vacuous else v :: vacuous) body
  | .lit p as => allVacuousAfter (vacuousAfter vacuous p) as

/-- The pass of `vacuousAfter` over several terms. -/
def allVacuousAfter (vacuous : List Var) : List Term → List Var
  | [] => vacuous
  | t :: ts => allVacuousAfter (vacuousAfter vacuous t) ts

end

/-- The variables that some lambda of the term binds and that no leaf behind its last such lambda
refers to. -/
def vacuous (t : Term) : List Var := t.vacuousAfter []

end LogicalForms.Term
