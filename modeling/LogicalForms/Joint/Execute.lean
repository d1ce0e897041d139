import LogicalForms.Joint.Basic

/-!
# Executing a parser output

`Joint.execute` runs an executor on every distinct logical form of a parser output once, in order of
first appearance, and pairs its evaluations with each derivation of that logical form.
-/

namespace LogicalForms

variable {m : Type → Type} {α R : Type}

/-- Executes logical forms, with effects in `m`. -/
structure Executor (m : Type → Type) (R α : Type) where
  /-- The evaluations of a logical form. -/
  run : Term → m (List (Evaluation R α))
  /-- No evaluation is pruned. -/
  exact : Bool := false

namespace Joint

variable [Monad m] {base : ParserOutput α}

/-- The pairs of the derivations at these positions; `known` are the logical forms executed so
far, with their evaluations. -/
def executeAt (ex : Executor m R α) (known : List (Term × List (Evaluation R α))) :
    List (Fin base.size) → m (List (JointPair base R))
  | [] => return []
  | i :: is => do
    let t := (base.get i).semantics
    match known.lookup t with
    | some es =>
      let rest ← executeAt ex known is
      return es.map (⟨i, ·⟩) ++ rest
    | none =>
      let es ← ex.run t
      let rest ← executeAt ex ((t, es) :: known) is
      return es.map (⟨i, ·⟩) ++ rest

/-- Executes the logical forms of `base` and groups the outcomes. -/
def execute [DecidableEq R] (base : ParserOutput α) (ex : Executor m R α) : m (Joint base R) := do
  let pairs ← executeAt ex [] (List.finRange base.size)
  return (({ exactEvaluation := ex.exact } : Builder base R).addPairs pairs).build

end Joint

end LogicalForms
