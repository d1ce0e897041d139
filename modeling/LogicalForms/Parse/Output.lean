import LogicalForms.Features.Arithmetic
import LogicalForms.Term.Basic

/-!
# Parser outputs

A `Derivation` is one scored reading of a sample.  Several parses may lead to the same logical form;
its features are then averaged over the best of them, and its log-inside score is the log of the
total mass of all of them.  A `ParserOutput` is a list of derivations.

Seen as a forest of depth one, an output has a normalizer (`ParserOutput.logNorm`) and expected
features (`ParserOutput.logExpectedFeatures`), both in log space.
-/

namespace LogicalForms

variable {α : Type}

/-- One scored reading. -/
structure Derivation (α : Type) where
  /-- The logical form. -/
  semantics : Term
  /-- The score of the best parse. -/
  score : α
  /-- The logarithm of the mass of all parses. -/
  logInside : α
  /-- The features, averaged over the best parses. -/
  features : FeatureVector α

/-- A reading with a single parse, whose log-inside score is the score. -/
def Derivation.single (semantics : Term) (score : α) (features : FeatureVector α) : Derivation α :=
  ⟨semantics, score, score, features⟩

/-- The readings of one sample. -/
structure ParserOutput (α : Type) where
  /-- The readings in the order of the parser. -/
  derivations : List (Derivation α)
  /-- No reading was pruned. -/
  exact : Bool := false

namespace ParserOutput

/-- The number of readings. -/
def size (o : ParserOutput α) : Nat := o.derivations.length

/-- The reading at a position. -/
def get (o : ParserOutput α) (i : Fin o.size) : Derivation α := List.get o.derivations i

/-- There is no reading. -/
def isEmpty (o : ParserOutput α) : Bool := o.derivations.isEmpty

/-- The positions of the readings in order. -/
def positions (o : ParserOutput α) : List (Fin o.size) := List.finRange o.size

theorem map_get_positions (o : ParserOutput α) : o.positions.map o.get = o.derivations := by
  apply List.ext_getElem
  · rw [List.length_map, positions, List.length_finRange, size]
  · intro i h₁ h₂
    rw [List.getElem_map]
    simp only [positions, List.getElem_finRange]
    rfl

section Best

variable [LT α] [DecidableLT α] [BEq α]

/-- The positions of the readings that tie for the highest score. -/
def bestAt (o : ParserOutput α) : List (Fin o.size) :=
  bestBy (fun i => (o.get i).score) o.positions

/-- The readings that tie for the highest score. -/
def best (o : ParserOutput α) : List (Derivation α) := bestBy Derivation.score o.derivations

theorem map_get_bestAt (o : ParserOutput α) : o.bestAt.map o.get = o.best := by
  rw [bestAt, map_bestBy o.get Derivation.score, map_get_positions, best]

end Best

/-- The positions of the readings whose logical form is `t`. -/
def positionsOf (o : ParserOutput α) (t : Term) : List (Fin o.size) :=
  o.positions.filter fun i => (o.get i).semantics = t

/-- The readings whose logical form is `t`. -/
def derivationsFor (o : ParserOutput α) (t : Term) : List (Derivation α) :=
  o.derivations.filter fun d => d.semantics = t

/-- The logical forms in order of first appearance. -/
def semantics (o : ParserOutput α) : List Term :=
  (o.derivations.map Derivation.semantics).eraseDups

section Log

variable [Zero α] [Add α] [Sub α] [LT α] [DecidableLT α] [BEq α] [LogScale α]

/-- The logarithm of the mass of all readings. -/
def logNorm (o : ParserOutput α) : α := logSumExp (o.derivations.map Derivation.logInside)

/-- The expected features, not normalized, given the outside score of each logical form.  Every
reading counts with its outside score plus its log-inside score; an outside score of −∞ leaves it
out. -/
def logExpectedFeatures (o : ParserOutput α) (outside : Term → α) : FeatureVector α :=
  o.derivations.foldl (fun v d =>
    if ScoreRange.impossible (outside d.semantics) then v
    else v.addLogMass (outside d.semantics + d.logInside) d.features) ∅

end Log

end ParserOutput

end LogicalForms
