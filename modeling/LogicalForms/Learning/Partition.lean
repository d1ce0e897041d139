import LogicalForms.Parse.Output

/-!
# Valid and invalid derivations

The learner parses an item twice: once as it is, and once biased towards valid logical forms.
`Partition.ofOutputs` tells which derivations of the two outputs an update has to push apart.

Derivations are given as members of a type `δ` with a `view`, so that a caller may tell them apart
by more than their content, for instance by their positions.
-/

namespace LogicalForms

variable {α δ : Type}

/-- The derivations to be separated. -/
structure Partition (δ : Type) where
  /-- Derivations of accepted logical forms. -/
  valid : List δ
  /-- Derivations of rejected logical forms. -/
  invalid : List δ

namespace Partition

section

variable [LT α] [DecidableLT α] [BEq α] [ScoreRange α]

/-- The derivations that tie for the highest score.  The scan starts at the lowest score, so −∞ does
not compete. -/
def hardest (view : δ → Derivation α) (ds : List δ) : List δ :=
  scanFrom ScoreRange.lowest (fun d => (view d).score) ds

/-- Splits the derivations of two outputs by whether their logical form is accepted.  Valid ones
come from `good` only, under hard updates just the best of them.  Invalid ones come from `real`, and
from `good` as far as their logical form was not rejected in `real` already. -/
def ofOutputs (view : δ → Derivation α) (accepts : Term → Bool) (hard : Bool)
    (real good : List δ) : Partition δ :=
  let rejected := real.filter fun d => !accepts (view d).semantics
  let known := rejected.map fun d => (view d).semantics
  let accepted := good.filter fun d => accepts (view d).semantics
  { valid := if hard then hardest view accepted else accepted
    invalid := rejected ++ good.filter fun d =>
      !accepts (view d).semantics && !known.contains (view d).semantics }

end

end Partition

end LogicalForms
