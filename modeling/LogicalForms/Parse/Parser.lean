import LogicalForms.Model.Basic
import LogicalForms.Parse.Output

/-!
# Parsers

A `Parser` turns a sample into a `ParserOutput` under a model.  Parsers are given from outside and
may have effects, so they work in a monad `m`.  A `ParseRequest` tells what is special about one
call.
-/

namespace LogicalForms

/-- Options of one parse; `L` is what a lexicon generator proposes. -/
structure ParseRequest (L : Type) where
  /-- Readings whose logical form it rejects are pruned. -/
  pruning : Option (Term → Bool) := none
  /-- Lexical entries to use in addition to the lexicon of the parser. -/
  lexicon : Option L := none
  /-- Takes the place of the beam size of the parser. -/
  beamSize : Option Nat := none

/-- The logical form survives pruning. -/
def ParseRequest.admits {L : Type} (r : ParseRequest L) (t : Term) : Bool :=
  match r.pruning with
  | some accepts => accepts t
  | none => true

/-- A semantic parser, which fails with a text. -/
structure Parser (m : Type → Type) (S L α : Type) where
  /-- The readings of a sample. -/
  parse : S → Model S α → ParseRequest L → m (Except String (ParserOutput α))

end LogicalForms
