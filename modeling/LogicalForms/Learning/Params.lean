import LogicalForms.Json.Writer

/-!
# Parameters of learning

`Params` holds the settings of the learner.  As a configuration value (`Params.ofJson?`) they are an
object whose fields are all optional, or an array of the first few of them in order.  A field that
is not a setting is passed over; a setting may occur only once.
-/

namespace LogicalForms

/-- The settings of the learner. -/
structure Params (α : Type) where
  /-- How often the learner goes through the data. -/
  epochs : UInt64
  /-- A valid derivation has to outscore an invalid one by this much for every unit by which their
  features differ. -/
  margin : α
  /-- Only the best valid derivations take part in updates. -/
  hardUpdates : Bool
  /-- The beam size of parsing with a generated lexicon. -/
  beamSize : UInt64
  /-- The output of lexical induction serves as the parse that is biased towards validity. -/
  conflateParses : Bool
  /-- Lexical induction is left out when the best parses are valid already. -/
  errorDriven : Bool
  deriving BEq

namespace Params

/-- The settings that hold unless others are given. -/
def standard {α : Type} [One α] : Params α where
  epochs := 4
  margin := 1
  hardUpdates := false
  beamSize := 20
  conflateParses := false
  errorDriven := false

/-- The names of the settings, in order. -/
def names : List String :=
  ["epochs", "margin", "hard_updates", "lexicon_generation_beam_size", "conflate_parses",
    "error_driven"]

/-- A truth value. -/
def bool? : Json → Option Bool
  | .bool b => some b
  | _ => none

/-- A count of 64 bits. -/
def count? : Json → Option UInt64
  | .number n => n.toUInt64?
  | _ => none

/-- A number in the range of the doubles. -/
def float? : Json → Option Float
  | .number n => n.toFloat?
  | _ => none

/-- Changes one setting.  Other names are passed over. -/
def set? (p : Params Float) (name : String) (x : Json) : Option (Params Float) :=
  match name with
  | "epochs" => (count? x).map fun n => { p with epochs := n }
  | "margin" => (float? x).map fun y => { p with margin := y }
  | "hard_updates" => (bool? x).map fun b => { p with hardUpdates := b }
  | "lexicon_generation_beam_size" => (count? x).map fun n => { p with beamSize := n }
  | "conflate_parses" => (bool? x).map fun b => { p with conflateParses := b }
  | "error_driven" => (bool? x).map fun b => { p with errorDriven := b }
  | _ => some p

/-- Changes settings by name; `seen` are those changed so far. -/
def setFields? (p : Params Float) (seen : List String) :
    List (Option String × Json) → Option (Params Float)
  | [] => some p
  | (none, _) :: _ => none
  | (some name, x) :: rest =>
    if name ∈ seen then none
    else do
      let p ← p.set? name x
      p.setFields? (if name ∈ names then name :: seen else seen) rest

/-- Changes the settings with these names in order. -/
def setInOrder? (p : Params Float) : List String → List Json → Option (Params Float)
  | _, [] => some p
  | [], _ :: _ => none
  | name :: names, x :: xs => do
    let p ← p.set? name x
    p.setInOrder? names xs

/-- The settings that a configuration value stands for. -/
def ofJson? : Json → Option (Params Float)
  | .object fields => standard.setFields? [] fields
  | .array xs => standard.setInOrder? names xs
  | _ => none

/-- The configuration value of settings. -/
def toJson (p : Params Float) : Json :=
  .object [
    (some "epochs", .number (.ofNat p.epochs.toNat)),
    (some "margin", .number (.ofFloat p.margin)),
    (some "hard_updates", .bool p.hardUpdates),
    (some "lexicon_generation_beam_size", .number (.ofNat p.beamSize.toNat)),
    (some "conflate_parses", .bool p.conflateParses),
    (some "error_driven", .bool p.errorDriven)]

end Params

end LogicalForms
