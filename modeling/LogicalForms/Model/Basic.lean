import LogicalForms.Model.FeatureSet

/-!
# Models

A `Model` holds the weights `theta`, the feature sets that describe logical forms, and the keys that
are pinned: no update may move their weights.  A logical form is scored by the inner product of the
weights with its features.
-/

namespace LogicalForms

/-- A linear model over samples of type `S`. -/
structure Model (S α : Type) where
  /-- The weights. -/
  theta : FeatureVector α := ∅
  /-- The feature sets in the order in which they add their features. -/
  featureSets : List (FeatureSet S α) := []
  /-- The pinned keys. -/
  pinned : List FeatureKey := []

namespace Model

variable {S α : Type}

/-- Pins a key. -/
def pin (m : Model S α) (k : FeatureKey) : Model S α := { m with pinned := k :: m.pinned }

/-- The key is pinned. -/
def isPinned (m : Model S α) (k : FeatureKey) : Bool := k ∈ m.pinned

/-- Adds a feature set behind the others. -/
def addFeatureSet (m : Model S α) (fs : FeatureSet S α) : Model S α :=
  { m with featureSets := m.featureSets ++ [fs] }

/-- The update may be added to the weights: it leaves every pinned key alone, and every feature set
accepts it. -/
def admitsUpdate [Zero α] [BEq α] (m : Model S α) (update : FeatureVector α) : Bool :=
  update.entries.all (fun (k, x) => x == 0 || !m.isPinned k) &&
    m.featureSets.all fun fs => fs.accepts update

/-- The features of a logical form in the context of a sample. -/
def features (m : Model S α) (s : S) (t : Term) : FeatureVector α :=
  m.featureSets.foldl (fun v fs => fs.addFeatures s t v) ∅

section Score

variable [Zero α] [Add α] [Mul α]

/-- The score of features. -/
def score (m : Model S α) (v : FeatureVector α) : α := m.theta.dot v

/-- The score of a logical form in the context of a sample. -/
def scoreTerm (m : Model S α) (s : S) (t : Term) : α := m.score (m.features s t)

end Score

end Model

end LogicalForms
