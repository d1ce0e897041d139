import LogicalForms.Learning.Error
import LogicalForms.Learning.Margin
import LogicalForms.Learning.Params
import LogicalForms.Learning.Partition
import LogicalForms.Learning.Stats
import LogicalForms.Model.Basic

/-!
# Updates

`constructUpdate` builds the update for violating derivations: the mean of the features of the valid
ones minus the mean of the features of the invalid ones, without noise.  `parameterUpdate` applies
the update for one visit to the model and records what happened.
-/

namespace LogicalForms

variable {S α : Type}

section Construct

variable [Zero α] [One α] [Add α] [Neg α] [Mul α] [Div α] [NatCast α]

/-- Adds the mean of the features of the derivations, times `factor`. -/
def addMean (v : FeatureVector α) (factor : α) (ds : List (Derivation α)) : FeatureVector α :=
  ds.foldl (fun v d => v.addTimes (factor / (ds.length : α)) d.features) v

/-- The update for violating derivations, if the model admits it. -/
def constructUpdate [LT α] [DecidableLT α] [LE α] [DecidableLE α] [BEq α] [OfScientific α]
    (model : Model S α) (valid invalid : List (Derivation α)) :
    Except (LearningError α) (FeatureVector α) :=
  if valid.isEmpty || invalid.isEmpty then .error .emptyViolatingSet
  else
    let update := (addMean (addMean ∅ 1 valid) (-1) invalid).dropNoise
    if model.admitsUpdate update then .ok update else .error (.invalidUpdate update)

end Construct

/-- The state of learning. -/
structure Progress (S α : Type) where
  /-- The model as learned so far. -/
  model : Model S α
  /-- What has happened so far. -/
  stats : LearningStats

namespace Progress

/-- Records something in the statistics. -/
def record (p : Progress S α) (f : LearningStats → Option LearningStats) :
    Except (LearningError α) Unit × Progress S α :=
  match f p.stats with
  | some stats => (.ok (), { p with stats := stats })
  | none => (.error .overflow, p)

/-- Adds an update to the weights. -/
def addUpdate [Zero α] [One α] [Add α] [Mul α] (p : Progress S α) (update : FeatureVector α) :
    Progress S α :=
  { p with model := { p.model with theta := p.model.theta.addTimes 1 update } }

end Progress

variable [Zero α] [One α] [Add α] [Neg α] [Mul α] [Div α] [NatCast α] [LT α] [DecidableLT α] [LE α]
  [DecidableLE α] [BEq α] [OfScientific α] [ScoreRange α]

/-- Updates the model on one visit, given the unbiased output and the one biased towards validity.
The answer tells whether there was an update.  Without valid, invalid or violating derivations there
is none. -/
def parameterUpdate (params : Params α) (accepts : Term → Bool) (visit : Visit)
    (real good : ParserOutput α) (p : Progress S α) :
    Except (LearningError α) Bool × Progress S α :=
  let parts := Partition.ofOutputs id accepts params.hardUpdates real.derivations good.derivations
  match if parts.valid.isEmpty then (.ok (), p) else p.record (·.recordValidParse visit) with
  | (.error e, p) => (.error e, p)
  | (.ok (), p) =>
    let (valid, invalid) :=
      violations (violatesMargin p.model.theta params.margin) parts.valid parts.invalid
    if valid.isEmpty || invalid.isEmpty then (.ok false, p)
    else
      match constructUpdate p.model valid invalid with
      | .error e => (.error e, p)
      | .ok update =>
        let (recorded, p) := (p.addUpdate update).record (·.recordUpdate visit)
        (recorded.map fun _ => true, p)

end LogicalForms
