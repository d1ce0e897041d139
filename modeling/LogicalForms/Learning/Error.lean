import LogicalForms.Features.Written

/-!
# Why learning stops

`LearningError` names the causes, and `LearningError.message` says each in words.
-/

namespace LogicalForms

/-- What ends learning early. -/
inductive LearningError (α : Type) where
  /-- The model refused an update. -/
  | invalidUpdate (update : FeatureVector α)
  /-- An update was to be made from no valid or no invalid derivation. -/
  | emptyViolatingSet
  /-- The parser failed, with a text of its own. -/
  | parserFailure (cause : String)
  /-- The number of epochs does not fit in a word.  This is not reported; the program stops. -/
  | overflow

/-- The cause in words. -/
def LearningError.message : LearningError Float → String
  | .invalidUpdate update => "invalid update: " ++ update.render
  | .emptyViolatingSet => "cannot construct an update without violating derivations"
  | .parserFailure cause => "parser failed: " ++ cause
  | .overflow => "attempt to add with overflow"

end LogicalForms
