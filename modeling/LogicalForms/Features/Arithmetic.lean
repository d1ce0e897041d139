import LogicalForms.Features.Vector
import LogicalForms.Score.LogSum

/-!
# Arithmetic on sparse vectors

A key without an entry has weight zero (`FeatureVector.weight`).

* `FeatureVector.addTimes` adds a multiple of a vector, and makes an entry for every key of it.
* `FeatureVector.dot` and `FeatureVector.l1Norm` are the inner product and the sum of magnitudes.
* `FeatureVector.dropNoise` removes the entries of small magnitude.
* `FeatureVector.addLogMass` works on vectors whose weights are logarithms of masses, where a key
  without an entry has no mass.
-/

namespace LogicalForms.FeatureVector

variable {α : Type}

section Linear

variable [Zero α] [Add α] [Mul α]

/-- The weight of `k`. -/
def weight (v : FeatureVector α) (k : FeatureKey) : α := (v.get? k).getD 0

/-- Adds `x` to the weight of `k`. -/
def addAt (v : FeatureVector α) (k : FeatureKey) (x : α) : FeatureVector α :=
  v.alter k fun old => some (old.getD 0 + x)

/-- The vector `v + factor * w`. -/
def addTimes (v : FeatureVector α) (factor : α) (w : FeatureVector α) : FeatureVector α :=
  w.entries.foldl (fun v (k, x) => v.addAt k (factor * x)) v

/-- The inner product, as a sum over the keys of `v` that `w` has as well. -/
def dotOver (v w : FeatureVector α) : α :=
  total (v.entries.filterMap fun (k, x) => (w.get? k).map (x * ·))

/-- The inner product, as a sum over the keys of the smaller vector. -/
def dot (v w : FeatureVector α) : α := if v.size ≤ w.size then v.dotOver w else w.dotOver v

end Linear

section Norm

variable [Zero α] [Neg α] [LT α] [DecidableLT α]

/-- The sum of the magnitudes. -/
def l1Norm [Add α] (v : FeatureVector α) : α := total (v.entries.map fun e => magnitude e.2)

/-- The smallest magnitude that is not noise, one in ten thousand. -/
def noise [OfScientific α] : α := 1e-4

/-- The entries that are not noise. -/
def dropNoise [OfScientific α] [LE α] [DecidableLE α] (v : FeatureVector α) : FeatureVector α :=
  v.filter fun x => noise ≤ magnitude x

end Norm

section Log

variable [Zero α] [Add α] [Sub α] [LT α] [DecidableLT α] [BEq α] [LogScale α]

/-- Adds the mass with logarithm `x` to the mass of `k`.  No mass leaves the vector as it is. -/
def addLogAt (v : FeatureVector α) (k : FeatureKey) (x : α) : FeatureVector α :=
  if ScoreRange.impossible x then v
  else v.alter k fun old => some (logAddExp (old.getD LogScale.negInf) x)

/-- Adds the weights of `w` as masses to a vector of logarithms, each times the mass with logarithm
`logFactor`. -/
def addLogMass (v : FeatureVector α) (logFactor : α) (w : FeatureVector α) : FeatureVector α :=
  w.entries.foldl (fun v (k, x) => v.addLogAt k (logFactor + LogScale.log x)) v

end Log

end LogicalForms.FeatureVector
