import LogicalForms.Learning.Visit

/-!
# Statistics of learning

`LearningStats` records what happened on each visit: that the item had a valid parse, that it
triggered an update, or that it was skipped.  It also counts the epochs that have been started.
`EpochStats` are the numbers of one epoch.

The count is a word of 64 bits.  An operation that would make it larger fails, and records nothing.
-/

namespace LogicalForms

/-- The numbers of one epoch. -/
structure EpochStats where
  /-- Items with a valid parse. -/
  hasValidParse : Nat := 0
  /-- Items that triggered an update. -/
  triggeredUpdate : Nat := 0
  /-- Items that were skipped. -/
  skipped : Nat := 0
  deriving DecidableEq

/-- The numbers in words. -/
def EpochStats.render (e : EpochStats) : String :=
  s!"{e.hasValidParse} with valid parse, {e.triggeredUpdate} updates, {e.skipped} skipped"

/-- What happened on each visit. -/
structure LearningStats where
  /-- The number of epochs that have been started. -/
  epochs : Nat := 0
  /-- The visits with a valid parse. -/
  hasValidParse : VisitSet := ∅
  /-- The visits that triggered an update. -/
  triggeredUpdate : VisitSet := ∅
  /-- The visits on which the item was skipped. -/
  skipped : VisitSet := ∅
  deriving DecidableEq

namespace LearningStats

/-- Starts an epoch, unless the number of epochs overflows. -/
def beginEpoch (s : LearningStats) (epoch : Nat) : Option LearningStats :=
  if epoch + 1 < UInt64.size then some { s with epochs := max s.epochs (epoch + 1) } else none

/-- Records a valid parse. -/
def recordValidParse (s : LearningStats) (v : Visit) : Option LearningStats := do
  let s ← s.beginEpoch v.epoch
  return { s with hasValidParse := s.hasValidParse.insert v }

/-- Records an update. -/
def recordUpdate (s : LearningStats) (v : Visit) : Option LearningStats := do
  let s ← s.beginEpoch v.epoch
  return { s with triggeredUpdate := s.triggeredUpdate.insert v }

/-- Records that the item was skipped. -/
def recordSkipped (s : LearningStats) (v : Visit) : Option LearningStats := do
  let s ← s.beginEpoch v.epoch
  return { s with skipped := s.skipped.insert v }

/-- The numbers of an epoch. -/
def epoch (s : LearningStats) (epoch : Nat) : EpochStats where
  hasValidParse := s.hasValidParse.countIn epoch
  triggeredUpdate := s.triggeredUpdate.countIn epoch
  skipped := s.skipped.countIn epoch

/-- One line for each epoch. -/
def render (s : LearningStats) : String :=
  String.join ((List.range s.epochs).map fun epoch => s!"epoch {epoch}: {(s.epoch epoch).render}\n")

end LearningStats

end LogicalForms
