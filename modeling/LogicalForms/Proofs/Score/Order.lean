import LogicalForms.Proofs.Features.Noise
import LogicalForms.Score.Best
import Mathlib

/-!
# Scores in order

A number that is not equal to itself compares with nothing.  The others are in a linear order
(`OrderedScores`): doubles are ranked by their sign, their exponent and their mantissa, where a
negative number with a larger exponent or mantissa ranks lower.

As long as all scores are in this order, a scan for the best keeps exactly the members that no other
member outscores (`scanBest_eq_topScoring`), and so does a selection in two passes
(`bestBy_eq_topScoring`).  Selecting some members beforehand leaves the best ones as they are when
all of these are selected, and only then (`topScoring_filter_eq_iff`).
-/

namespace LogicalForms

variable {α β : Type}

/-- Numbers that are in a linear order, as far as they are equal to themselves. -/
class OrderedScores (α : Type) [LT α] [BEq α] : Prop where
  exists_rank : ∃ (ι : Type) (_ : LinearOrder ι) (rank : α → ι), ∀ x y : α,
    (x == x) = true → (y == y) = true →
      (x < y ↔ rank x < rank y) ∧ ((x == y) = true ↔ rank x = rank y)

instance [LinearOrder α] [BEq α] [LawfulBEq α] : OrderedScores α :=
  ⟨α, inferInstance, id, fun _ _ _ _ => ⟨Iff.rfl, beq_iff_eq⟩⟩

/-! ### Doubles -/

namespace Double

open Float.Model

/-- The place of a double among all doubles; the two zeros share theirs. -/
def rank : UnpackedFloat → ℤ ×ₗ ℤ ×ₗ ℤ
  | .infinity .negative => toLex (-2, toLex (0, 0))
  | .finite .negative mantissa exponent _ => toLex (-1, toLex (-exponent, -mantissa))
  | .notANumber | .zero _ => toLex (0, toLex (0, 0))
  | .finite .positive mantissa exponent _ => toLex (1, toLex (exponent, mantissa))
  | .infinity .positive => toLex (2, toLex (0, 0))

theorem ne_notANumber_of_beq_self {u : UnpackedFloat} (h : u.beq u = true) : u ≠ .notANumber := by
  rintro rfl
  cases h

theorem compare_then_eq_lt {e e' : ℤ} {m m' : ℕ} :
    (compare e e').then (compare m m') = .lt ↔ e < e' ∨ e = e' ∧ m < m' := by
  simp [Ordering.then_eq_lt, Int.compare_eq_lt, Nat.compare_eq_lt]

theorem compare_then_eq_gt {e e' : ℤ} {m m' : ℕ} :
    (compare e e').then (compare m m') = .gt ↔ e' < e ∨ e = e' ∧ m' < m := by
  simp [Ordering.then_eq_gt, Int.compare_eq_gt, Nat.compare_eq_gt]

theorem compare_sign_self (s : UnpackedFloat.Sign) : compare s s = .eq := by
  cases s <;> rfl

theorem lt_iff_rank {u v : UnpackedFloat} (hu : u ≠ .notANumber) (hv : v ≠ .notANumber) :
    u.lt v = true ↔ rank u < rank v := by
  rcases u with (_ | _) | _ | _ | ⟨_ | _, m, e, hm⟩ <;>
    rcases v with (_ | _) | _ | _ | ⟨_ | _, m', e', hm'⟩ <;>
    simp_all [UnpackedFloat.lt, UnpackedFloat.compare, rank, Prod.Lex.toLex_lt_toLex,
      compare_then_eq_lt, compare_then_eq_gt]
  -- of two infinities, the negative one is below
  rfl

theorem beq_iff_rank {u v : UnpackedFloat} (hu : u ≠ .notANumber) (hv : v ≠ .notANumber) :
    u.beq v = true ↔ rank u = rank v := by
  rcases u with (_ | _) | _ | _ | ⟨_ | _, m, e, hm⟩ <;>
    rcases v with (_ | _) | _ | _ | ⟨_ | _, m', e', hm'⟩ <;>
    simp_all [UnpackedFloat.beq, UnpackedFloat.compare, rank, Ordering.then_eq_eq,
      compare_sign_self]

end Double

instance : OrderedScores Float where
  exists_rank := by
    refine ⟨ℤ ×ₗ ℤ ×ₗ ℤ, inferInstance, fun x => Double.rank x.toModel.unpack,
      fun x y hx hy => ?_⟩
    have hx' := Double.ne_notANumber_of_beq_self hx
    have hy' := Double.ne_notANumber_of_beq_self hy
    exact ⟨(Double.lt_iff x y).trans (Double.lt_iff_rank hx' hy'), Double.beq_iff_rank hx' hy'⟩

/-! ### The order -/

section Order

variable [LT α] [BEq α] [OrderedScores α] {x y z : α}

theorem score_lt_irrefl (hx : (x == x) = true) : ¬x < x := by
  obtain ⟨ι, _, rank, h⟩ := OrderedScores.exists_rank (α := α)
  rw [(h x x hx hx).1]
  exact lt_irrefl _

theorem score_lt_trans (hx : (x == x) = true) (hy : (y == y) = true) (hz : (z == z) = true)
    (hxy : x < y) (hyz : y < z) : x < z := by
  obtain ⟨ι, _, rank, h⟩ := OrderedScores.exists_rank (α := α)
  rw [(h _ _ ‹_› ‹_›).1] at hxy hyz ⊢
  exact hxy.trans hyz

theorem score_lt_of_lt_of_not_lt (hx : (x == x) = true) (hy : (y == y) = true)
    (hz : (z == z) = true) (hxy : x < y) (hzy : ¬z < y) : x < z := by
  obtain ⟨ι, _, rank, h⟩ := OrderedScores.exists_rank (α := α)
  rw [(h _ _ ‹_› ‹_›).1] at hxy hzy ⊢
  exact hxy.trans_le (not_lt.1 hzy)

theorem score_beq_iff (hx : (x == x) = true) (hy : (y == y) = true) :
    (x == y) = true ↔ ¬x < y ∧ ¬y < x := by
  obtain ⟨ι, _, rank, h⟩ := OrderedScores.exists_rank (α := α)
  rw [(h x y hx hy).1, (h x y hx hy).2, (h y x hy hx).1, not_lt, not_lt]
  exact ⟨fun he => ⟨he.ge, he.le⟩, fun ⟨hyx, hxy⟩ => le_antisymm hxy hyx⟩

theorem score_lt_congr (hx : (x == x) = true) (hy : (y == y) = true) (hz : (z == z) = true)
    (hxy : (x == y) = true) : (z < x ↔ z < y) ∧ (x < z ↔ y < z) := by
  obtain ⟨ι, _, rank, h⟩ := OrderedScores.exists_rank (α := α)
  rw [(h x y hx hy).2] at hxy
  rw [(h z x hz hx).1, (h z y hz hy).1, (h x z hx hz).1, (h y z hy hz).1, hxy]
  exact ⟨Iff.rfl, Iff.rfl⟩

end Order

/-! ### The best of several -/

section Scan

variable [LT α] [DecidableLT α]

section Kept

variable [BEq α] {score : β → α} {xs : List β}

theorem scanStep_ne_nil {kept : α × List β} (h : kept.2 ≠ []) (x : β) :
    (scanStep score kept x).2 ≠ [] := by
  unfold scanStep
  split_ifs
  · exact List.cons_ne_nil _ _
  · exact List.append_ne_nil_of_left_ne_nil h _
  · exact h

theorem foldl_scanStep_ne_nil {kept : α × List β} (h : kept.2 ≠ []) :
    (xs.foldl (scanStep score) kept).2 ≠ [] := by
  induction xs generalizing kept with
  | nil => exact h
  | cons x xs ih => exact ih (scanStep_ne_nil h x)

theorem scanBest_eq_nil_iff : scanBest score xs = [] ↔ xs = [] := by
  cases xs with
  | nil => exact iff_of_true rfl rfl
  | cons x xs =>
    exact iff_of_false (foldl_scanStep_ne_nil (List.cons_ne_nil _ _)) (List.cons_ne_nil _ _)

end Kept

/-- The members that no member outscores. -/
def topScoring (score : β → α) (xs : List β) : List β :=
  xs.filter fun x => ∀ y ∈ xs, ¬score x < score y

variable [BEq α] [OrderedScores α]

/-- What a scan knows of the members it has seen: the highest score, and who has it. -/
structure Scanned (score : β → α) (kept : α × List β) (seen : List β) : Prop where
  exists_mem : ∃ x ∈ seen, score x = kept.1
  not_lt : ∀ x ∈ seen, ¬kept.1 < score x
  kept_eq : kept.2 = seen.filter fun x => score x == kept.1

variable {score : β → α} {kept : α × List β} {seen xs : List β}

omit [DecidableLT α] in
theorem Scanned.singleton {x : β} (hx : (score x == score x) = true) :
    Scanned score (score x, [x]) [x] :=
  ⟨⟨x, List.mem_cons_self, rfl⟩, by simpa using score_lt_irrefl hx, by simp [hx]⟩

omit [DecidableLT α] [OrderedScores α] in
theorem Scanned.top_beq_self (h : Scanned score kept seen)
    (hnum : ∀ x ∈ seen, (score x == score x) = true) : (kept.1 == kept.1) = true := by
  obtain ⟨x, hx, htop⟩ := h.exists_mem
  rw [← htop]
  exact hnum x hx

omit [DecidableLT α] [OrderedScores α] in
/-- A member that does not outscore the others leaves the highest score as it is. -/
theorem Scanned.append_of_not_lt (h : Scanned score kept seen) {kept' : α × List β} {x : β}
    (hlt : ¬kept.1 < score x) (htop : kept'.1 = kept.1)
    (hkept : kept'.2 = kept.2 ++ [x].filter fun y => score y == kept.1) :
    Scanned score kept' (seen ++ [x]) := by
  refine ⟨?_, fun y hy => ?_, ?_⟩
  · obtain ⟨y, hy, hscore⟩ := h.exists_mem
    exact ⟨y, List.mem_append_left _ hy, hscore.trans htop.symm⟩
  · rw [htop]
    rcases List.mem_append.1 hy with hy | hy
    · exact h.not_lt y hy
    · rwa [List.mem_singleton.1 hy]
  · rw [hkept, htop, List.filter_append, h.kept_eq]

theorem Scanned.step (h : Scanned score kept seen) {x : β}
    (hnum : ∀ y ∈ seen ++ [x], (score y == score y) = true) :
    Scanned score (scanStep score kept x) (seen ++ [x]) := by
  have hseen : ∀ y ∈ seen, (score y == score y) = true := fun y hy =>
    hnum y (List.mem_append_left _ hy)
  have hx : (score x == score x) = true := hnum x (by simp)
  have htop := h.top_beq_self hseen
  unfold scanStep
  split_ifs with hlt hbeq
  · refine ⟨⟨x, by simp, rfl⟩, fun y hy => ?_, ?_⟩
    · rcases List.mem_append.1 hy with hy | hy
      · exact fun hlt' => h.not_lt y hy (score_lt_trans htop hx (hseen y hy) hlt hlt')
      · rw [List.mem_singleton.1 hy]
        exact score_lt_irrefl hx
    · -- whoever had the highest score so far is outscored
      have hnone : seen.filter (fun y => score y == score x) = [] := by
        refine List.filter_eq_nil_iff.2 fun y hy hyx => h.not_lt y hy ?_
        exact (score_lt_congr (hseen y hy) hx htop hyx).1.2 hlt
      rw [List.filter_append, hnone]
      simp [hx]
  · exact h.append_of_not_lt hlt rfl (by simp [hbeq])
  · exact h.append_of_not_lt hlt rfl (by simp [hbeq])

theorem Scanned.foldl (h : Scanned score kept seen)
    (hnum : ∀ y ∈ seen ++ xs, (score y == score y) = true) :
    Scanned score (xs.foldl (scanStep score) kept) (seen ++ xs) := by
  induction xs generalizing kept seen with
  | nil => simpa using h
  | cons x xs ih =>
    rw [List.append_cons] at hnum ⊢
    exact ih (h.step fun y hy => hnum y (List.mem_append_left _ hy)) hnum

/-- When somebody reaches a score that nobody exceeds, those who reach it are the members that no
member outscores. -/
theorem topScoring_eq_filter {top : α} (hnum : ∀ x ∈ xs, (score x == score x) = true)
    (htop : (top == top) = true) (hbound : ∀ x ∈ xs, ¬top < score x)
    (hreached : ∃ x ∈ xs, (score x == top) = true) :
    topScoring score xs = xs.filter fun x => score x == top := by
  refine List.filter_congr fun x hx => ?_
  rw [Bool.eq_iff_iff, decide_eq_true_iff]
  constructor
  · intro hmax
    obtain ⟨y, hy, hbeq⟩ := hreached
    refine (score_beq_iff (hnum x hx) htop).2 ⟨fun hlt => hmax y hy ?_, hbound x hx⟩
    exact (score_lt_congr (hnum y hy) htop (hnum x hx) hbeq).1.2 hlt
  · intro hbeq y hy hlt
    exact hbound y hy ((score_lt_congr (hnum x hx) htop (hnum y hy) hbeq).2.1 hlt)

theorem Scanned.kept_eq_topScoring (h : Scanned score kept xs)
    (hnum : ∀ x ∈ xs, (score x == score x) = true) : kept.2 = topScoring score xs := by
  have htop := h.top_beq_self hnum
  obtain ⟨y, hy, hscore⟩ := h.exists_mem
  rw [h.kept_eq, topScoring_eq_filter hnum htop h.not_lt ⟨y, hy, hscore ▸ htop⟩]

/-- **A scan for the best keeps the members that no member outscores**, in order, when every score
is equal to itself. -/
theorem scanBest_eq_topScoring (hnum : ∀ x ∈ xs, (score x == score x) = true) :
    scanBest score xs = topScoring score xs := by
  cases xs with
  | nil => rfl
  | cons x xs =>
    have hx : (score x == score x) = true := hnum x List.mem_cons_self
    exact ((Scanned.singleton hx).foldl hnum).kept_eq_topScoring hnum

theorem topScoring_eq_nil_iff (hnum : ∀ x ∈ xs, (score x == score x) = true) :
    topScoring score xs = [] ↔ xs = [] := by
  rw [← scanBest_eq_topScoring hnum, scanBest_eq_nil_iff]

/-- **The best of the selected members are the best of all** exactly when all of the latter are
selected. -/
theorem topScoring_filter_eq_iff {p : β → Bool} (hnum : ∀ x ∈ xs, (score x == score x) = true) :
    topScoring score (xs.filter p) = topScoring score xs ↔
      ∀ x ∈ topScoring score xs, p x = true := by
  constructor
  · intro heq x hx
    rw [← heq] at hx
    exact List.of_mem_filter (List.mem_of_mem_filter hx)
  · intro hselected
    rw [topScoring, List.filter_filter, topScoring]
    refine List.filter_congr fun x hx => ?_
    rw [Bool.eq_iff_iff, Bool.and_eq_true, decide_eq_true_iff, decide_eq_true_iff]
    constructor
    · rintro ⟨hmax, -⟩ y hy hlt
      -- whoever outscores `x` does not outscore the best, who are selected
      obtain ⟨z, hz⟩ := List.exists_mem_of_ne_nil _
        (mt (topScoring_eq_nil_iff hnum).1 (List.ne_nil_of_mem hx))
      obtain ⟨hzmem, hzmax⟩ := List.mem_filter.1 hz
      refine hmax z (List.mem_filter.2 ⟨hzmem, hselected z hz⟩) ?_
      exact score_lt_of_lt_of_not_lt (hnum x hx) (hnum y hy) (hnum z hzmem) hlt
        (of_decide_eq_true hzmax y hy)
    · intro hmax
      exact ⟨fun y hy => hmax y (List.mem_of_mem_filter hy),
        hselected x (List.mem_filter.2 ⟨hx, decide_eq_true hmax⟩)⟩

omit [OrderedScores α] in
theorem larger_eq_ite {x y : α} (hx : (x == x) = true) : larger x y = if x < y then y else x := by
  rw [larger, if_pos hx]

omit [OrderedScores α] in
theorem fst_foldl_scanStep (hkept : (kept.1 == kept.1) = true)
    (hnum : ∀ x ∈ xs, (score x == score x) = true) :
    (xs.foldl (scanStep score) kept).1 = (xs.map score).foldl larger kept.1 := by
  induction xs generalizing kept with
  | nil => rfl
  | cons x xs ih =>
    obtain ⟨hx, hxs⟩ := List.forall_mem_cons.1 hnum
    have hstep : (scanStep score kept x).1 = larger kept.1 (score x) := by
      rw [larger_eq_ite hkept]
      unfold scanStep
      split_ifs <;> rfl
    have hnext : ((scanStep score kept x).1 == (scanStep score kept x).1) = true := by
      rw [hstep, larger_eq_ite hkept]
      split_ifs
      · exact hx
      · exact hkept
    rw [List.foldl_cons, ih hnext hxs, hstep, List.map_cons, List.foldl_cons]

theorem foldl_larger_spec {x : α} {xs : List α} (hnum : ∀ y ∈ x :: xs, (y == y) = true) :
    xs.foldl larger x ∈ x :: xs ∧ ∀ y ∈ x :: xs, ¬xs.foldl larger x < y := by
  obtain ⟨hx, hxs⟩ := List.forall_mem_cons.1 hnum
  have hscanned : Scanned id (xs.foldl (scanStep id) (x, [x])) (x :: xs) :=
    (Scanned.singleton hx).foldl hnum
  have htop : (xs.foldl (scanStep id) (x, [x])).1 = (xs.map id).foldl larger x :=
    fst_foldl_scanStep hx hxs
  rw [List.map_id] at htop
  rw [← htop]
  obtain ⟨y, hy, heq⟩ := hscanned.exists_mem
  exact ⟨heq ▸ hy, hscanned.not_lt⟩

/-- **Finding the largest score first, and then its members, gives the same members.** -/
theorem bestBy_eq_topScoring (hnum : ∀ x ∈ xs, (score x == score x) = true) :
    bestBy score xs = topScoring score xs := by
  cases xs with
  | nil => rfl
  | cons x xs =>
    obtain ⟨hx, hxs⟩ := List.forall_mem_cons.1 hnum
    have hscanned : Scanned score (xs.foldl (scanStep score) (score x, [x])) (x :: xs) :=
      (Scanned.singleton hx).foldl hnum
    rw [← hscanned.kept_eq_topScoring hnum, hscanned.kept_eq, fst_foldl_scanStep hx hxs]
    rfl

/-- One pass and two passes agree when every score is equal to itself. -/
theorem scanBest_eq_bestBy (hnum : ∀ x ∈ xs, (score x == score x) = true) :
    scanBest score xs = bestBy score xs := by
  rw [scanBest_eq_topScoring hnum, bestBy_eq_topScoring hnum]

/-- A first score that is not equal to itself stops the scan, but not the search for the largest. -/
example : (scanBest id [0 / 0, (1 : Float)]).map (· == 1) = [false] ∧
    (bestBy id [0 / 0, (1 : Float)]).map (· == 1) = [true] := by
  decide +kernel

end Scan

end LogicalForms
