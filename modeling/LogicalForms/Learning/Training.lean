import LogicalForms.Learning.Update
import LogicalForms.Parse.Parser

/-!
# Training

A `Learner` goes through the data epoch by epoch.  On each visit it may first run lexical induction
(`Learner.induce`), then parses the item twice and updates the model (`Learner.visit`).  Everything
that is given from outside — parser, lexicon generator, observer — works in a monad `m`; the model
and the statistics are the state of the learner and survive an error.
-/

namespace LogicalForms

variable {m : Type → Type} {Item S L α : Type}

/-- Proposes lexical entries for an item and commits those that proved useful. -/
structure LexiconGenerator (m : Type → Type) (Item S L α : Type) where
  /-- The entries to try on an item. -/
  generate : Item → Model S α → m L
  /-- The model after adopting the entries that these derivations use. -/
  adopt : Item → List (Derivation α) → Model S α → m (Model S α)

/-- A learner that is told which logical forms are acceptable, not which ones are right. -/
structure Learner (m : Type → Type) (Item S L α : Type) where
  /-- The settings. -/
  params : Params α
  /-- What the parser reads of an item. -/
  sample : Item → S
  /-- The parser. -/
  parser : Parser m S L α
  /-- The logical form is acceptable for the item. -/
  isValid : Item → Term → Bool
  /-- Only these items are trained on. -/
  filter : Option (Item → Bool) := none
  /-- Proposes lexical entries. -/
  generator : Option (LexiconGenerator m Item S L α) := none
  /-- Is shown every output of the parser. -/
  observe : Item → ParserOutput α → m Unit

/-- Steps of training. -/
abbrev Training (m : Type → Type) (S α : Type) :=
  ExceptT (LearningError α) (StateT (Progress S α) m)

/-- Records something in the statistics. -/
def Training.record [Monad m] (f : LearningStats → Option LearningStats) : Training m S α Unit := do
  let (result, p) := (← get).record f
  set p
  MonadExcept.ofExcept result

/-- What lexical induction leaves behind. -/
structure Induction (α : Type) where
  /-- The unbiased output, if it was needed and is still current. -/
  real : Option (ParserOutput α) := none
  /-- The output under the generated lexicon. -/
  generated : Option (ParserOutput α) := none

namespace Learner

/-- The item passes the filter, if there is one. -/
def accepts (l : Learner m Item S L α) (item : Item) : Bool :=
  match l.filter with
  | some passes => passes item
  | none => true

variable [Monad m]

/-- Parses an item under the current model. -/
def parse (l : Learner m Item S L α) (item : Item) (request : ParseRequest L) :
    Training m S α (ParserOutput α) := do
  let model := (← get).model
  let result ← (l.parser.parse (l.sample item) model request : m _)
  match result with
  | .error cause => throw (.parserFailure cause)
  | .ok output =>
    (l.observe item output : m _)
    return output

/-- Parses an item, pruning logical forms that are not acceptable for it. -/
def parseValid (l : Learner m Item S L α) (item : Item) : Training m S α (ParserOutput α) :=
  l.parse item { pruning := some (l.isValid item) }

section Order

variable [LT α] [DecidableLT α] [BEq α]

/-- There are best derivations, and they are all acceptable. -/
def bestIsValid (l : Learner m Item S L α) (item : Item) (output : ParserOutput α) : Bool :=
  !output.best.isEmpty && output.best.all fun d => l.isValid item d.semantics

/-- Parses an item under a generated lexicon and adopts what its best valid derivations use. -/
def tryLexicon (l : Learner m Item S L α) (item : Item)
    (generator : LexiconGenerator m Item S L α) : Training m S α (Induction α) := do
  let lexicon ← (generator.generate item (← get).model : m _)
  let output ← l.parse item
    { pruning := some (l.isValid item)
      lexicon := some lexicon
      beamSize := some l.params.beamSize.toNat }
  let useful := scanBest Derivation.score
    (output.derivations.filter fun d => l.isValid item d.semantics)
  if !useful.isEmpty then
    let model ← (generator.adopt item useful (← get).model : m _)
    modify fun p => { p with model := model }
  return { generated := some output }

/-- Lexical induction on an item.  If learning is driven by errors, it is left out when the best
derivations are valid already; the output that showed this stays current. -/
def induce (l : Learner m Item S L α) (item : Item) : Training m S α (Induction α) := do
  match l.generator with
  | none => return {}
  | some generator =>
    if l.params.errorDriven then
      let output ← l.parse item {}
      if l.bestIsValid item output then return { real := some output }
      else l.tryLexicon item generator
    else l.tryLexicon item generator

end Order

variable [Zero α] [One α] [Add α] [Neg α] [Mul α] [Div α] [NatCast α] [LT α] [DecidableLT α] [LE α]
  [DecidableLE α] [BEq α] [OfScientific α] [ScoreRange α]

/-- Updates the model from one item that passed the filter. -/
def learnFrom (l : Learner m Item S L α) (item : Item) (v : Visit) : Training m S α Unit := do
  let induction ← l.induce item
  let real ← match induction.real with
    | some output => pure output
    | none => l.parse item {}
  let good ← match induction.generated with
    | some output => if l.params.conflateParses then pure output else l.parseValid item
    | none => l.parseValid item
  let (result, p) := parameterUpdate l.params (l.isValid item) v real good (← get)
  set p
  discard (MonadExcept.ofExcept result)

/-- One visit of an item.  Items that the filter rejects are only recorded. -/
def visit (l : Learner m Item S L α) (item : Item) (v : Visit) : Training m S α Unit :=
  if l.accepts item then l.learnFrom item v else Training.record (·.recordSkipped v)

/-- Visits the items from position `position` on. -/
def visitFrom (l : Learner m Item S L α) (epoch : Nat) :
    (position : Nat) → List Item → Training m S α Unit
  | _, [] => return
  | position, item :: items => do
    l.visit item ⟨position, epoch⟩
    l.visitFrom epoch (position + 1) items

/-- One epoch. -/
def runEpoch (l : Learner m Item S L α) (items : List Item) (epoch : Nat) :
    Training m S α Unit := do
  Training.record (·.beginEpoch epoch)
  l.visitFrom epoch 0 items

/-- `count` epochs, numbered from `first` on. -/
def runEpochs (l : Learner m Item S L α) (items : List Item) :
    (first count : Nat) → Training m S α Unit
  | _, 0 => return
  | first, count + 1 => do
    l.runEpoch items first
    l.runEpochs items (first + 1) count

/-- Trains a model.  The statistics are the result; the model is given in any case. -/
def train (l : Learner m Item S L α) (items : List Item) (model : Model S α) :
    m (Except (LearningError α) LearningStats × Model S α) := do
  let (result, p) ← (l.runEpochs items 0 l.params.epochs.toNat).run.run ⟨model, {}⟩
  return (result.map fun _ => p.stats, p.model)

end Learner

end LogicalForms
