import LogicalForms.Features.Arithmetic
import Mathlib.Algebra.Ring.Defs
import Mathlib.Tactic.Common

/-!
# What arithmetic on sparse vectors stores

`FeatureVector.addTimes` and `FeatureVector.addLogMass` go through the entries of a vector and change
one key of another vector for each.  Every key comes once, so what is stored for a key afterwards
depends on what both vectors store for this key (`FeatureVector.get?_foldl_alter`).

* `FeatureVector.get?_addTimes`, `FeatureVector.weight_addTimes` — adding a multiple;
* `FeatureVector.get?_addLogMass` — adding masses in log space.
-/

namespace LogicalForms.FeatureVector

variable {α : Type}

/-- **A pass over the entries changes each key once.** -/
theorem get?_foldl_alter {step : FeatureVector α → FeatureKey × α → FeatureVector α}
    (change : α → Option α → Option α)
    (hstep : ∀ v j x k, (step v (j, x)).get? k = if k = j then change x (v.get? j) else v.get? k)
    {es : List (FeatureKey × α)} (hes : es.Pairwise fun a b => a.1 < b.1) (v : FeatureVector α)
    (k : FeatureKey) :
    (es.foldl step v).get? k =
      match lookup k es with
      | none => v.get? k
      | some x => change x (v.get? k) := by
  induction es generalizing v with
  | nil => rfl
  | cons e es ih =>
    obtain ⟨j, x⟩ := e
    obtain ⟨hj, hes⟩ := List.pairwise_cons.1 hes
    rw [List.foldl_cons, ih hes, hstep, lookup]
    by_cases hk : j = k
    · subst hk
      -- the key does not come again
      have hnone : lookup j es = none := lookup_eq_none_of_lt hj
      simp [hnone]
    · rw [if_neg hk, if_neg (Ne.symm hk)]

section Linear

variable [Zero α] [Add α] [Mul α]

omit [Mul α] in
theorem get?_addAt (v : FeatureVector α) (j k : FeatureKey) (x : α) :
    (v.addAt j x).get? k = if k = j then some ((v.get? j).getD 0 + x) else v.get? k :=
  get?_alter v j k _

theorem get?_addTimes (v w : FeatureVector α) (factor : α) (k : FeatureKey) :
    (v.addTimes factor w).get? k =
      match w.get? k with
      | none => v.get? k
      | some x => some ((v.get? k).getD 0 + factor * x) :=
  get?_foldl_alter (fun x old => some (old.getD 0 + factor * x))
    (fun v j x k => get?_addAt v j k (factor * x)) w.ascending v k

end Linear

/-- **Weights add up.** -/
theorem weight_addTimes [NonUnitalNonAssocSemiring α] (v w : FeatureVector α) (factor : α)
    (k : FeatureKey) : (v.addTimes factor w).weight k = v.weight k + factor * w.weight k := by
  rw [weight, weight, weight, get?_addTimes]
  cases w.get? k <;> simp

theorem weight_foldl_addTimes [NonUnitalNonAssocSemiring α] {β : Type} (f : β → FeatureVector α)
    (factor : α) (xs : List β) (v : FeatureVector α) (k : FeatureKey) :
    (xs.foldl (fun v x => v.addTimes factor (f x)) v).weight k =
      v.weight k + factor * (xs.map fun x => (f x).weight k).sum := by
  induction xs generalizing v with
  | nil => simp
  | cons x xs ih =>
    rw [List.foldl_cons, ih, weight_addTimes, List.map_cons, List.sum_cons, mul_add, add_assoc]

section Log

variable [Add α] [Sub α] [LT α] [DecidableLT α] [BEq α] [LogScale α]

theorem get?_addLogAt (v : FeatureVector α) (j k : FeatureKey) (x : α) :
    (v.addLogAt j x).get? k =
      if k = j then
        if ScoreRange.impossible x then v.get? j
        else some (logAddExp ((v.get? j).getD LogScale.negInf) x)
      else v.get? k := by
  rw [addLogAt]
  split
  · by_cases hk : k = j
    · rw [hk, if_pos rfl]
    · rw [if_neg hk]
  · exact get?_alter v j k _

theorem get?_addLogMass (v w : FeatureVector α) (logFactor : α) (k : FeatureKey) :
    (v.addLogMass logFactor w).get? k =
      match w.get? k with
      | none => v.get? k
      | some x =>
        if ScoreRange.impossible (logFactor + LogScale.log x) then v.get? k
        else some (logAddExp ((v.get? k).getD LogScale.negInf) (logFactor + LogScale.log x)) :=
  get?_foldl_alter
    (fun x old =>
      if ScoreRange.impossible (logFactor + LogScale.log x) then old
      else some (logAddExp (old.getD LogScale.negInf) (logFactor + LogScale.log x)))
    (fun v j x k => get?_addLogAt v j k (logFactor + LogScale.log x)) w.ascending v k

end Log

end LogicalForms.FeatureVector
