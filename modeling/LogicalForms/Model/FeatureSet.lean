import LogicalForms.Features.Arithmetic
import LogicalForms.Term.Printer

/-!
# Feature sets

A `FeatureSet` is a source of features for a logical form in the context of a sample.  It may also
refuse updates of the weights.  `FeatureSet.constantCounts`, which counts the constants of a logical
form, is the one that is always at hand.

Other feature sets come from outside, and nothing that is proved of models depends on which ones
they are.  Three stand-ins for them are given to run models with: `FeatureSet.sampleLength` measures
the sample, `FeatureSet.nonnegative` and `FeatureSet.bounded` have no features and only constrain
updates.
-/

namespace LogicalForms

variable {S α : Type}

/-- A source of features over samples of type `S`. -/
structure FeatureSet (S α : Type) where
  /-- Adds the features of a logical form. -/
  addFeatures : S → Term → FeatureVector α → FeatureVector α := fun _ _ v => v
  /-- The update respects the constraints of the set. -/
  accepts : FeatureVector α → Bool := fun _ => true

namespace FeatureSet

/-- The key of the count of a constant. -/
def constantKey (c : Constant) : FeatureKey := .ofTags ["CONST", c.render]

section Counts

variable [Zero α] [One α] [Add α]

mutual

/-- Counts the constants of a term. -/
def countConstants (v : FeatureVector α) : Term → FeatureVector α
  | .const c => v.addAt (constantKey c) 1
  | .var _ => v
  | .lam _ body => countConstants v body
  | .lit p as => countAllConstants (countConstants v p) as

/-- Counts the constants of the terms. -/
def countAllConstants (v : FeatureVector α) : List Term → FeatureVector α
  | [] => v
  | t :: ts => countAllConstants (countConstants v t) ts

end

/-- One feature `CONST#name:type` for each constant, its number of occurrences. -/
def constantCounts : FeatureSet S α where
  addFeatures _ t v := countConstants v t

end Counts

/-! ### Stand-ins for sets from outside -/

/-- The feature `LEN`, the number of bytes of the sample in UTF-8. -/
def sampleLength [NatCast α] : FeatureSet String α where
  addFeatures s _ v := v.set ⟨"LEN"⟩ (s.utf8ByteSize : α)

/-- Accepts an update if no key with that leading tag has a negative weight in it. -/
def nonnegative [Zero α] [LE α] [DecidableLE α] (tag : String) : FeatureSet S α where
  accepts v := v.entries.all fun (k, x) => k.leadingTag ≠ tag || 0 ≤ x

/-- Accepts an update if no weight in it has a magnitude above `limit`. -/
def bounded [Zero α] [Neg α] [LT α] [DecidableLT α] [LE α] [DecidableLE α] (limit : α) :
    FeatureSet S α where
  accepts v := v.entries.all fun (_, x) => magnitude x ≤ limit

end FeatureSet

end LogicalForms
