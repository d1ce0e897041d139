import LogicalForms.Proofs.Features.Arithmetic
import Mathlib.Algebra.BigOperators.Finprod
import Mathlib.Algebra.BigOperators.Group.Finset.Basic
import Mathlib.Algebra.BigOperators.Ring.Finset
import Mathlib.Algebra.Order.BigOperators.Group.Finset
import Mathlib.Algebra.Order.Field.Rat

/-!
# Inner products and norms

An inner product and a norm go through the entries of a vector, but they depend on the weights
alone: they are sums over keys, and a key without an entry adds nothing (`FeatureVector.dot_eq_sum`,
`FeatureVector.l1Norm_eq_sum`).  So they may as well be taken over all keys
(`FeatureVector.dot_eq_finsum`, `FeatureVector.l1Norm_eq_finsum`).

* `FeatureVector.dot_comm` — it does not matter which of the two vectors is gone through;
* `FeatureVector.dot_addTimes` — the inner product is linear;
* `FeatureVector.l1Norm_addTimes_le` — the triangle inequality;
* `FeatureVector.SameWeights.dropNoise_eq` — vectors with the same weights are equal without their
  noise.
-/

namespace LogicalForms

theorem total_eq_sum {α : Type} [AddMonoid α] (xs : List α) : total xs = xs.sum :=
  List.sum_eq_foldl.symm

theorem magnitude_eq_abs (x : ℚ) : magnitude x = |x| := by
  unfold magnitude
  split_ifs with h
  · exact (abs_of_neg h).symm
  · exact (abs_of_nonneg (not_lt.1 h)).symm

namespace FeatureVector

variable {α β : Type}

/-! ### Sums over keys -/

/-- The keys that have an entry. -/
def keySet (v : FeatureVector α) : Finset FeatureKey := v.keys.toFinset

theorem nodup_keys (v : FeatureVector α) : v.keys.Nodup := by
  rw [keys, List.Nodup, List.pairwise_map]
  refine v.ascending.imp fun {a b} hab heq => ?_
  exact FeatureKey.lt_irrefl b.1 (heq ▸ hab)

theorem mem_keySet_iff {v : FeatureVector α} {k : FeatureKey} :
    k ∈ v.keySet ↔ ∃ x, v.get? k = some x := by
  simp [keySet, keys, get?_eq_some_iff]

theorem isEmpty_iff_keySet {v : FeatureVector α} : v.isEmpty = true ↔ v.keySet = ∅ := by
  rw [isEmpty, List.isEmpty_iff, keySet, List.toFinset_eq_empty_iff, keys, List.map_eq_nil_iff]

section Zero

variable [Zero α] {v w : FeatureVector α} {k : FeatureKey}

theorem weight_eq_of_mem {e : FeatureKey × α} (h : e ∈ v.entries) : v.weight e.1 = e.2 := by
  rw [weight, get?_eq_some_iff.2 h, Option.getD_some]

theorem weight_eq_zero_of_notMem (h : k ∉ v.keySet) : v.weight k = 0 := by
  rw [weight]
  cases hk : v.get? k with
  | none => rfl
  | some x => exact absurd (mem_keySet_iff.2 ⟨x, hk⟩) h

theorem sum_entries [AddCommMonoid β] (v : FeatureVector α) (f : FeatureKey → α → β) :
    (v.entries.map fun e => f e.1 e.2).sum = ∑ k ∈ v.keySet, f k (v.weight k) := by
  rw [keySet, List.sum_toFinset _ v.nodup_keys, keys, List.map_map]
  refine congrArg List.sum (List.map_congr_left fun e he => ?_)
  rw [Function.comp_apply, weight_eq_of_mem he]

/-- Keys without an entry may be left out of a sum in which no weight counts for nothing. -/
theorem finsum_eq_sum_keySet [AddCommMonoid β] (v : FeatureVector α) (f : FeatureKey → α → β)
    (hf : ∀ k, f k 0 = 0) : ∑ᶠ k, f k (v.weight k) = ∑ k ∈ v.keySet, f k (v.weight k) := by
  refine finsum_eq_sum_of_support_subset _ fun k hk => ?_
  by_contra hmem
  refine Function.mem_support.1 hk ?_
  rw [weight_eq_zero_of_notMem hmem, hf]

/-- The vectors have the same weights, though one may store zeros that the other leaves out. -/
def SameWeights (v w : FeatureVector α) : Prop := ∀ k, v.weight k = w.weight k

theorem sameWeights_set_zero (h : v.weight k = 0) : v.SameWeights (v.set k 0) := by
  intro j
  rw [weight, weight, get?_set]
  split_ifs with hj
  · rw [hj]
    exact h
  · rfl

end Zero

/-! ### Inner products -/

section Inner

variable [CommSemiring α] {u v w : FeatureVector α}

theorem dotOver_eq_sum_entries (v w : FeatureVector α) :
    v.dotOver w = (v.entries.map fun e => e.2 * w.weight e.1).sum := by
  rw [dotOver, total_eq_sum]
  induction v.entries with
  | nil => rfl
  | cons e es ih =>
    rw [List.map_cons, List.sum_cons, ← ih, weight, List.filterMap_cons]
    cases hk : w.get? e.1 <;> simp [hk]

theorem dotOver_eq_sum {s : Finset FeatureKey} (h : v.keySet ⊆ s) (w : FeatureVector α) :
    v.dotOver w = ∑ k ∈ s, v.weight k * w.weight k := by
  rw [dotOver_eq_sum_entries, sum_entries v fun k x => x * w.weight k]
  refine Finset.sum_subset h fun k _ hk => ?_
  rw [weight_eq_zero_of_notMem hk, zero_mul]

theorem dotOver_comm (v w : FeatureVector α) : v.dotOver w = w.dotOver v := by
  have hv : v.keySet ⊆ v.keySet ∪ w.keySet := Finset.subset_union_left
  have hw : w.keySet ⊆ v.keySet ∪ w.keySet := Finset.subset_union_right
  rw [dotOver_eq_sum hv, dotOver_eq_sum hw]
  exact Finset.sum_congr rfl fun k _ => mul_comm _ _

theorem dot_eq_dotOver (v w : FeatureVector α) : v.dot w = v.dotOver w := by
  rw [dot]
  split_ifs
  · rfl
  · exact dotOver_comm w v

/-- **An inner product is a sum over keys.** -/
theorem dot_eq_sum {s : Finset FeatureKey} (h : v.keySet ⊆ s) (w : FeatureVector α) :
    v.dot w = ∑ k ∈ s, v.weight k * w.weight k := by
  rw [dot_eq_dotOver, dotOver_eq_sum h]

theorem dotOver_eq_finsum (v w : FeatureVector α) :
    v.dotOver w = ∑ᶠ k, v.weight k * w.weight k := by
  rw [dotOver_eq_sum subset_rfl,
    finsum_eq_sum_keySet v (fun k x => x * w.weight k) fun k => zero_mul _]

theorem dot_eq_finsum (v w : FeatureVector α) : v.dot w = ∑ᶠ k, v.weight k * w.weight k := by
  rw [dot_eq_dotOver, dotOver_eq_finsum]

theorem SameWeights.dot_eq {v' w' : FeatureVector α} (hv : v.SameWeights v')
    (hw : w.SameWeights w') : v.dot w = v'.dot w' := by
  rw [dot_eq_finsum, dot_eq_finsum]
  exact finsum_congr fun k => by rw [hv k, hw k]

theorem SameWeights.addTimes {v' w' : FeatureVector α} (hv : v.SameWeights v')
    (hw : w.SameWeights w') (x : α) : (v.addTimes x w).SameWeights (v'.addTimes x w') := by
  intro k
  rw [weight_addTimes, weight_addTimes, hv k, hw k]

theorem dot_comm (v w : FeatureVector α) : v.dot w = w.dot v := by
  rw [dot_eq_dotOver, dot_eq_dotOver, dotOver_comm]

/-- **The inner product is linear.** -/
theorem dot_addTimes (u v w : FeatureVector α) (x : α) :
    (u.addTimes x v).dot w = u.dot w + x * v.dot w := by
  have h : w.keySet ⊆ w.keySet := subset_rfl
  rw [dot_comm _ w, dot_comm u, dot_comm v, dot_eq_sum h, dot_eq_sum h, dot_eq_sum h,
    Finset.mul_sum, ← Finset.sum_add_distrib]
  refine Finset.sum_congr rfl fun k _ => ?_
  rw [weight_addTimes, mul_add, mul_left_comm]

end Inner

/-! ### Norms -/

section Norm

variable {v w : FeatureVector ℚ}

/-- **The norm is the sum of the absolute weights.** -/
theorem l1Norm_eq_sum_abs (v : FeatureVector ℚ) : v.l1Norm = ∑ k ∈ v.keySet, |v.weight k| := by
  rw [l1Norm, total_eq_sum, ← sum_entries v fun _ x => |x|]
  exact congrArg List.sum (List.map_congr_left fun e _ => magnitude_eq_abs e.2)

theorem l1Norm_eq_sum {s : Finset FeatureKey} (h : v.keySet ⊆ s) :
    v.l1Norm = ∑ k ∈ s, |v.weight k| := by
  rw [l1Norm_eq_sum_abs]
  refine Finset.sum_subset h fun k _ hk => ?_
  rw [weight_eq_zero_of_notMem hk, abs_zero]

theorem l1Norm_nonneg (v : FeatureVector ℚ) : 0 ≤ v.l1Norm := by
  rw [l1Norm_eq_sum_abs]
  exact Finset.sum_nonneg fun k _ => abs_nonneg _

theorem l1Norm_eq_finsum (v : FeatureVector ℚ) : v.l1Norm = ∑ᶠ k, |v.weight k| := by
  rw [l1Norm_eq_sum_abs, finsum_eq_sum_keySet v (fun _ x => |x|) fun _ => abs_zero]

theorem SameWeights.l1Norm_eq (h : v.SameWeights w) : v.l1Norm = w.l1Norm := by
  rw [l1Norm_eq_finsum, l1Norm_eq_finsum]
  exact finsum_congr fun k => by rw [h k]

/-- **The triangle inequality.** -/
theorem l1Norm_addTimes_le (v w : FeatureVector ℚ) (x : ℚ) :
    (v.addTimes x w).l1Norm ≤ v.l1Norm + |x| * w.l1Norm := by
  -- all three norms are sums over the same keys
  let s := (v.addTimes x w).keySet ∪ (v.keySet ∪ w.keySet)
  have hv : v.keySet ⊆ s := Finset.subset_union_left.trans Finset.subset_union_right
  have hw : w.keySet ⊆ s := Finset.subset_union_right.trans Finset.subset_union_right
  have hle : ∀ k, |(v.addTimes x w).weight k| ≤ |v.weight k| + |x| * |w.weight k| := by
    intro k
    rw [weight_addTimes, ← abs_mul]
    exact abs_add_le _ _
  calc (v.addTimes x w).l1Norm
      = ∑ k ∈ s, |(v.addTimes x w).weight k| := l1Norm_eq_sum Finset.subset_union_left
    _ ≤ ∑ k ∈ s, (|v.weight k| + |x| * |w.weight k|) := Finset.sum_le_sum fun k _ => hle k
    _ = v.l1Norm + |x| * w.l1Norm := by
      rw [Finset.sum_add_distrib, ← Finset.mul_sum, ← l1Norm_eq_sum hv, ← l1Norm_eq_sum hw]

end Norm

/-! ### Noise -/

theorem noise_pos : (0 : ℚ) < noise := by decide +kernel

theorem get?_dropNoise (v : FeatureVector ℚ) (k : FeatureKey) :
    v.dropNoise.get? k = if noise ≤ |v.weight k| then some (v.weight k) else none := by
  rw [dropNoise, get?_filter, weight]
  cases v.get? k with
  | none => simp [not_le.2 noise_pos]
  | some x => simp [Option.filter_some, magnitude_eq_abs]

/-- **Without noise the weights say what is stored.** -/
theorem SameWeights.dropNoise_eq {v w : FeatureVector ℚ} (h : v.SameWeights w) :
    v.dropNoise = w.dropNoise :=
  ext_get? fun k => by rw [get?_dropNoise, get?_dropNoise, h k]

end FeatureVector

end LogicalForms
