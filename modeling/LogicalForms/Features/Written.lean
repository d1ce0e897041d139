import LogicalForms.Decimal.Shortest
import LogicalForms.Features.Vector
import LogicalForms.Json.Basic
import LogicalForms.Json.Writer

/-!
# Written forms of vectors

`FeatureVector.render` shows a vector of doubles as `key=weight` pairs in braces.  As a
configuration value a vector is an object of numbers, of whose equal fields the last one counts.
-/

namespace LogicalForms.FeatureVector

/-- The entries in the order of their keys. -/
def render (v : FeatureVector Float) : String :=
  let shown := v.entries.map fun (k, x) => k.text ++ "=" ++ Decimal.ofFloat x
  "\x7b" ++ ", ".intercalate shown ++ "\x7d"

/-- The entry that a field stands for. -/
def entryOfField? (field : Option String × Json) : Option (FeatureKey × Float) :=
  match field with
  | (some key, .number n) => n.toFloat?.map (⟨key⟩, ·)
  | _ => none

/-- The vector that a configuration value stands for. -/
def ofJson? : Json → Option (FeatureVector Float)
  | .object fields => (fields.mapM entryOfField?).map ofList
  | _ => none

/-- The configuration value of a vector of finite weights. -/
def toJson (v : FeatureVector Float) : Json :=
  .object (v.entries.map fun (k, x) => (some k.text, .number (.ofFloat x)))

end LogicalForms.FeatureVector
