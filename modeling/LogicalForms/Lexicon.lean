import LogicalForms.Learning.Training

/-!
# Lexicons of whole samples

The parser and the lexicon generator of a learner come from outside, and nothing that is proved
depends on which ones they are.  Lexicons of whole samples are the simplest stand-ins for both, to
run learning with; no other module uses them.

The parser looks a sample up in a list of readings.  A `Reading` gives the logical form of a sample
with its features; `Reading.derivation` scores it under a model and `Lexicon.parse` is the parser.
As a lexicon generator a lexicon proposes readings, and adopts those whose logical form is that of a
useful derivation.
-/

namespace LogicalForms

variable {α : Type}

/-- One reading of one sample. -/
structure Reading (α : Type) where
  /-- The sample. -/
  sample : String
  /-- The logical form. -/
  term : Term
  /-- Features of its own. -/
  features : FeatureVector α
  /-- The features that the model gives the logical form count as well. -/
  counts : Bool
  /-- Added to the score. -/
  bias : α
  /-- Added to the score to give the log-inside score. -/
  inside : Option α
  /-- The initial weight of its features, given on adoption. -/
  init : Option α

/-- The derivation of a reading under a model. -/
def Reading.derivation [Zero α] [One α] [Add α] [Mul α] (r : Reading α) (model : Model String α) :
    Derivation α :=
  let features :=
    if r.counts then r.features.addTimes 1 (model.features r.sample r.term) else r.features
  let score := model.score features + r.bias
  { Derivation.single r.term score features with
    logInside := match r.inside with
      | some x => score + x
      | none => score }

/-- Sets the initial weight of those features of a reading that have no weight yet. -/
def Reading.startWeights (r : Reading α) (theta : FeatureVector α) : FeatureVector α :=
  match r.init with
  | none => theta
  | some x => r.features.keys.foldl (fun v k => if v.contains k then v else v.set k x) theta

/-- A list of readings. -/
abbrev Lexicon (α : Type) := List (Reading α)

namespace Lexicon

/-- The readings of a sample. -/
def ofSample (lexicon : Lexicon α) (sample : String) : Lexicon α :=
  lexicon.filter fun r => r.sample = sample

section Beam

variable [LE α] [DecidableLE α] [BEq α]

/-- Higher scores come first, and scores that are not equal to themselves last. -/
def comesFirst (d e : Derivation α) : Bool :=
  !(e.score == e.score) || (d.score == d.score && decide (e.score ≤ d.score))

/-- The best derivations, as many as the beam holds. -/
def cutToBeam (size : Option Nat) (ds : List (Derivation α)) : List (Derivation α) :=
  match size with
  | none => ds
  | some n => (ds.mergeSort comesFirst).take n

/-- The parser: the readings of the sample in the lexicon and in the generated one, as far as the
request admits them. -/
def parse [Zero α] [One α] [Add α] [Mul α] (lexicon : Lexicon α) (sample : String)
    (model : Model String α) (request : ParseRequest (Lexicon α)) : ParserOutput α :=
  let readings := (lexicon ++ request.lexicon.getD []).ofSample sample
  let derivations := (readings.map fun r => r.derivation model).filter fun d =>
    request.admits d.semantics
  { derivations := cutToBeam request.beamSize derivations }

end Beam

/-- The proposals of a generator, each with whether it has been adopted. -/
structure Induced (α : Type) where
  /-- The lexicon of the parser. -/
  lexicon : Lexicon α
  /-- The proposals. -/
  proposals : List (Reading α × Bool)

/-- Adopts the reading of a sample with this logical form, for each proposal that fits. -/
def Induced.adoptTerm (sample : String) (t : Term) (state : Induced α × FeatureVector α) :
    Induced α × FeatureVector α :=
  let fits (p : Reading α × Bool) := !p.2 && p.1.sample = sample && p.1.term = t
  let adopted := (state.1.proposals.filter fits).map Prod.fst
  ({ lexicon := state.1.lexicon ++ adopted
     proposals := state.1.proposals.map fun p => if fits p then (p.1, true) else p },
    adopted.foldl (fun theta r => r.startWeights theta) state.2)

/-- Adopts the readings that derivations of a sample use. -/
def Induced.adopt (state : Induced α) (sample : String) (ds : List (Derivation α))
    (model : Model String α) : Induced α × Model String α :=
  let (state, theta) := ds.foldl (fun s d => adoptTerm sample d.semantics s) (state, model.theta)
  (state, { model with theta := theta })

end Lexicon

end LogicalForms
