import LogicalForms.Parse.Output

/-!
# Joint parsing and execution

A logical form can be executed, with results of a type `R`, and what matters is the result.  A
`Joint base R` groups pairs of a derivation of `base` and an evaluation of its logical form by the
result, in the order in which the results first appear.  A pair refers to its derivation by
position, so that equal derivations stay apart.

* `Joint.Builder` collects pairs; `Joint.Builder.build` groups them.
* `Joint.best` are the results with the highest score.
* `Joint.logNorm` and `Joint.logExpectedFeatures` are the normalizer and the expected features of
  the results that a test accepts, in log space.
-/

namespace LogicalForms

variable {α R : Type}

/-- One outcome of executing a logical form. -/
structure Evaluation (R α : Type) where
  /-- The result. -/
  result : R
  /-- The logarithm of the probability of this outcome. -/
  logScore : α
  /-- The features of the execution. -/
  features : FeatureVector α

/-- A derivation of `base` with an evaluation of its logical form. -/
structure JointPair (base : ParserOutput α) (R : Type) where
  /-- The position of the derivation. -/
  source : Fin base.size
  /-- The evaluation. -/
  evaluation : Evaluation R α

/-- The pairs that share a result. -/
structure JointGroup (base : ParserOutput α) (R : Type) where
  /-- The result. -/
  result : R
  /-- The pairs in the order in which they were added. -/
  pairs : List (JointPair base R)

/-- Pairs grouped by result. -/
structure Joint (base : ParserOutput α) (R : Type) where
  /-- The groups in the order in which their results first appeared. -/
  groups : List (JointGroup base R)
  /-- Nothing was pruned, neither a derivation nor an evaluation. -/
  exact : Bool

namespace JointPair

variable {base : ParserOutput α}

/-- The derivation of the pair. -/
def derivation (p : JointPair base R) : Derivation α := base.get p.source

/-- The result of the pair. -/
def result (p : JointPair base R) : R := p.evaluation.result

/-- The log-inside score of the derivation plus the log score of the evaluation. -/
def logInside [Add α] (p : JointPair base R) : α := p.derivation.logInside + p.evaluation.logScore

/-- The score of the derivation plus the log score of the evaluation. -/
def score [Add α] (p : JointPair base R) : α := p.derivation.score + p.evaluation.logScore

end JointPair

namespace JointGroup

variable {base : ParserOutput α}

/-- Puts a pair behind the others of its result, or into a new group at the end. -/
def add [DecidableEq R] (p : JointPair base R) : List (JointGroup base R) → List (JointGroup base R)
  | [] => [⟨p.result, [p]⟩]
  | g :: gs =>
    if g.result = p.result then { g with pairs := g.pairs ++ [p] } :: gs else g :: add p gs

variable [Add α] [LT α] [DecidableLT α] [BEq α] [LogScale α]

/-- The logarithm of the mass of all pairs. -/
def logInside [Zero α] [Sub α] (g : JointGroup base R) : α :=
  logSumExp (g.pairs.map JointPair.logInside)

/-- The score of the best pair. -/
def score (g : JointGroup base R) : α := largest (g.pairs.map JointPair.score)

end JointGroup

namespace Joint

/-- The pairs collected for a `Joint`. -/
structure Builder (base : ParserOutput α) (R : Type) where
  /-- The pairs in the order in which they were added. -/
  pairs : List (JointPair base R) := []
  /-- No evaluation was pruned. -/
  exactEvaluation : Bool := false

namespace Builder

variable {base : ParserOutput α}

/-- Adds a pair. -/
def addPair (b : Builder base R) (p : JointPair base R) : Builder base R :=
  { b with pairs := b.pairs ++ [p] }

/-- Adds pairs in order. -/
def addPairs (b : Builder base R) (ps : List (JointPair base R)) : Builder base R :=
  { b with pairs := b.pairs ++ ps }

/-- Tells whether no evaluation was pruned. -/
def setExact (b : Builder base R) (exact : Bool) : Builder base R :=
  { b with exactEvaluation := exact }

/-- Groups the pairs by result. -/
def build [DecidableEq R] (b : Builder base R) : Joint base R where
  groups := b.pairs.foldl (fun gs p => JointGroup.add p gs) []
  exact := b.exactEvaluation && base.exact

end Builder

variable {base : ParserOutput α}

/-- The pairs whose result the test accepts, group by group. -/
def executions (j : Joint base R) (accepts : R → Bool) : List (JointPair base R) :=
  (j.groups.filter fun g => accepts g.result).flatMap JointGroup.pairs

/-- The pairs with that result. -/
def executionsFor [DecidableEq R] (j : Joint base R) (result : R) : List (JointPair base R) :=
  j.executions fun r => r = result

section Log

variable [Add α] [LT α] [DecidableLT α] [BEq α] [LogScale α]

/-- The groups that tie for the highest score. -/
def best (j : Joint base R) : List (JointGroup base R) := bestBy JointGroup.score j.groups

variable [Zero α] [Sub α]

/-- The logarithm of the mass of the groups whose result the test accepts. -/
def logNorm (j : Joint base R) (accepts : R → Bool := fun _ => true) : α :=
  logSumExp ((j.groups.filter fun g => accepts g.result).map JointGroup.logInside)

/-- The outside score of a logical form: the logarithm of the mass of its evaluations among the
pairs.  The evaluations belong to the logical form, so of several derivations only the first paired
one counts. -/
def outside (pairs : List (JointPair base R)) (t : Term) : α :=
  match pairs.find? fun p => p.derivation.semantics = t with
  | none => LogScale.negInf
  | some first =>
    (pairs.filter fun p => p.source = first.source).foldl
      (fun s p => logSumExp [s, p.evaluation.logScore]) LogScale.negInf

/-- The expected features, not normalized, of the groups whose result the test accepts: those of the
base output under the outside scores, and those of each evaluation, weighted by its log score plus
the log-inside score of its derivation. -/
def logExpectedFeatures (j : Joint base R) (accepts : R → Bool := fun _ => true) :
    FeatureVector α :=
  let pairs := j.executions accepts
  pairs.foldl (fun v p =>
      v.addLogMass (p.evaluation.logScore + p.derivation.logInside) p.evaluation.features)
    (base.logExpectedFeatures (outside pairs))

end Log

end Joint

end LogicalForms
