import LogicalForms.Learning.Partition
import LogicalForms.Proofs.Score.Order
import Mathlib.Data.List.Permutation

/-!
# Sorting derivations one by one

`Partition.ofOutputs` selects from two outputs what is valid and what is not.  `Sorting` comes to
one derivation after the other: first to those of `real`, where it notes the logical forms that are
rejected, and then to those of `good`, where it passes over a rejected logical form that was noted.
The two come to the same (`Partition.ofOutputs_eq_sort`).

A rejected logical form is noted exactly if a derivation of `real` has it.  So it counts as often as
in `real`, and only if it is not there as often as in `good` (`Partition.count_invalid`).
-/

namespace LogicalForms

variable {α δ : Type}

/-! ### One derivation after the other -/

/-- What has been sorted so far. -/
structure Sorting (α δ : Type) where
  /-- The score that a valid derivation has to reach under hard updates. -/
  reach : α
  /-- The valid derivations. -/
  valid : List δ := []
  /-- The invalid derivations. -/
  invalid : List δ := []
  /-- The logical forms rejected in the first output. -/
  known : List Term := []

namespace Sorting

variable (view : δ → Derivation α) (accepts : Term → Bool)

/-- Comes to a derivation of the first output. -/
def takeReal (s : Sorting α δ) (d : δ) : Sorting α δ :=
  if accepts (view d).semantics then s
  else { s with invalid := s.invalid ++ [d], known := s.known.insert (view d).semantics }

variable [LT α] [DecidableLT α] [BEq α]

/-- Keeps a valid derivation.  Under hard updates it has to reach the score of those before, and
replaces them if it scores more. -/
def keep (hard : Bool) (kept : α × List δ) (d : δ) : α × List δ :=
  if hard then scanStep (fun d => (view d).score) kept d else (kept.1, kept.2 ++ [d])

/-- Comes to a derivation of the second output. -/
def takeGood (hard : Bool) (s : Sorting α δ) (d : δ) : Sorting α δ :=
  if accepts (view d).semantics then
    let (reach, valid) := keep view hard (s.reach, s.valid) d
    { s with reach, valid }
  else if (view d).semantics ∈ s.known then s
  else { s with invalid := s.invalid ++ [d] }

variable {view accepts} {s : Sorting α δ}

omit [LT α] [DecidableLT α] [BEq α] in
theorem foldl_takeReal (real : List δ) :
    let rejected := real.filter fun d => !accepts (view d).semantics
    real.foldl (takeReal view accepts) s =
      { s with
        invalid := s.invalid ++ rejected
        known := rejected.foldl (fun known d => known.insert (view d).semantics) s.known } := by
  induction real generalizing s with
  | nil => simp
  | cons d ds ih =>
    rw [List.foldl_cons, ih, takeReal]
    split_ifs with h
    · simp [h]
    · simp [h]

omit [LT α] [DecidableLT α] [BEq α] in
theorem mem_foldl_insert {ds : List δ} {known : List Term} {t : Term} :
    t ∈ ds.foldl (fun known d => known.insert (view d).semantics) known ↔
      t ∈ known ∨ t ∈ ds.map fun d => (view d).semantics := by
  induction ds generalizing known with
  | nil => simp
  | cons d ds ih =>
    rw [List.foldl_cons, ih, List.mem_insert_iff, List.map_cons, List.mem_cons, or_assoc,
      or_left_comm]

theorem foldl_takeGood (hard : Bool) (good : List δ) :
    let kept := (good.filter fun d => accepts (view d).semantics).foldl (keep view hard)
      (s.reach, s.valid)
    good.foldl (takeGood view accepts hard) s =
      { s with
        reach := kept.1
        valid := kept.2
        invalid := s.invalid ++ good.filter fun d =>
          !accepts (view d).semantics && (view d).semantics ∉ s.known } := by
  induction good generalizing s with
  | nil => simp
  | cons d ds ih =>
    rw [List.foldl_cons, ih, takeGood]
    split_ifs with h hknown
    · simp [h]
    · simp [h, hknown]
    · simp [h, hknown]

variable {hard : Bool} {kept : α × List δ} {d e : δ}

theorem mem_of_mem_keep (h : e ∈ (keep view hard kept d).2) : e ∈ kept.2 ∨ e = d := by
  unfold keep scanStep at h
  split_ifs at h <;> simp_all

theorem mem_of_mem_foldl_keep {ds : List δ} (h : e ∈ (ds.foldl (keep view hard) kept).2) :
    e ∈ kept.2 ∨ e ∈ ds := by
  induction ds generalizing kept with
  | nil => exact .inl h
  | cons d ds ih =>
    rcases ih h with h | h
    · rcases mem_of_mem_keep h with h | rfl
      · exact .inl h
      · exact .inr List.mem_cons_self
    · exact .inr (List.mem_cons_of_mem _ h)

theorem foldl_keep_false (ds : List δ) (kept : α × List δ) :
    (ds.foldl (keep view false) kept).2 = kept.2 ++ ds := by
  induction ds generalizing kept with
  | nil => exact (List.append_nil _).symm
  | cons d ds ih =>
    rw [List.foldl_cons, ih]
    exact List.append_assoc kept.2 [d] ds

end Sorting

/-! ### Both ways of sorting -/

namespace Partition

variable (view : δ → Derivation α) (accepts : Term → Bool)

/-- A rejected logical form is known exactly if a derivation of the first output has it. -/
theorem known_iff {d : δ} (h : accepts (view d).semantics = false) (real : List δ) :
    (view d).semantics ∈ (real.filter fun d => !accepts (view d).semantics).map
        (fun d => (view d).semantics) ↔
      (view d).semantics ∈ real.map fun d => (view d).semantics := by
  simp only [List.mem_map, List.mem_filter]
  constructor
  · rintro ⟨e, ⟨he, -⟩, heq⟩
    exact ⟨e, he, heq⟩
  · rintro ⟨e, he, heq⟩
    exact ⟨e, ⟨he, by rw [heq, h]; rfl⟩, heq⟩

variable [LT α] [DecidableLT α] [BEq α] [ScoreRange α] (hard : Bool) (real good : List δ)

/-- The derivations of two outputs, sorted one by one. -/
def sort : Partition δ :=
  let s : Sorting α δ := { reach := ScoreRange.lowest }
  let s := real.foldl (Sorting.takeReal view accepts) s
  let s := good.foldl (Sorting.takeGood view accepts hard) s
  ⟨s.valid, s.invalid⟩

/-- **Invalid are the rejected derivations of the first output**, and behind them those of the
second one whose logical form the first one does not have. -/
theorem invalid_ofOutputs :
    (ofOutputs view accepts hard real good).invalid =
      (real.filter fun d => !accepts (view d).semantics) ++
        (good.filter fun d => !accepts (view d).semantics).filter fun d =>
          (view d).semantics ∉ real.map fun d => (view d).semantics := by
  rw [List.filter_filter]
  refine congrArg _ (List.filter_congr fun d _ => ?_)
  cases h : accepts (view d).semantics with
  | true => simp
  | false => simp [-List.mem_map, known_iff view accepts h]

theorem valid_ofOutputs :
    (ofOutputs view accepts hard real good).valid =
      ((good.filter fun d => accepts (view d).semantics).foldl (Sorting.keep view hard)
        (ScoreRange.lowest, [])).2 := by
  cases hard with
  | true => rfl
  | false =>
    rw [Sorting.foldl_keep_false]
    rfl

theorem disjoint_ofOutputs :
    (ofOutputs view accepts hard real good).valid.Disjoint
      (ofOutputs view accepts hard real good).invalid := by
  intro d hvalid hinvalid
  rw [valid_ofOutputs] at hvalid
  have hgood : d ∈ good.filter fun d => accepts (view d).semantics :=
    (Sorting.mem_of_mem_foldl_keep hvalid).resolve_left List.not_mem_nil
  have haccepts : accepts (view d).semantics = true := (List.mem_filter.1 hgood).2
  simp [invalid_ofOutputs, haccepts] at hinvalid

/-- **Selecting and sorting come to the same.** -/
theorem ofOutputs_eq_sort :
    ofOutputs view accepts hard real good = sort view accepts hard real good := by
  simp only [sort, Sorting.foldl_takeReal, Sorting.foldl_takeGood, Sorting.mem_foldl_insert,
    List.not_mem_nil, false_or, decide_not, List.nil_append,
    ← valid_ofOutputs view accepts hard real good]
  simp only [ofOutputs, List.contains_eq_mem]

/-- Selecting by the logical form keeps all places of a logical form, or none. -/
theorem count_map_filter (form : δ → Term) (p : Term → Bool) (ds : List δ) (t : Term) :
    ((ds.filter fun d => p (form d)).map form).count t =
      if p t then (ds.map form).count t else 0 := by
  have hmap : (ds.filter fun d => p (form d)).map form = (ds.map form).filter p :=
    List.filter_map.symm
  rw [hmap]
  split_ifs with h
  · exact List.count_filter h
  · exact List.count_eq_zero.2 fun hmem => h (List.of_mem_filter hmem)

/-- **How often a logical form is invalid**: a rejected one as often as the first output has it, or
as often as the second one has it if the first one does not have it at all. -/
theorem count_invalid (t : Term) :
    let form d := (view d).semantics
    ((ofOutputs view accepts hard real good).invalid.map form).count t =
      if accepts t then 0
      else if t ∈ real.map form then (real.map form).count t
      else (good.map form).count t := by
  intro form
  rw [invalid_ofOutputs, List.map_append, List.count_append, List.filter_filter,
    count_map_filter form (!accepts ·),
    count_map_filter form fun t => decide (t ∉ real.map form) && !accepts t]
  by_cases haccepts : accepts t = true
  · simp [haccepts]
  · by_cases hreal : t ∈ real.map form
    · simp [haccepts, hreal, -List.mem_map]
    · simp [haccepts, hreal, -List.mem_map, List.count_eq_zero.2 hreal]

theorem perm_ofOutputs_self (ds : List δ) :
    ((ofOutputs view accepts false ds ds).valid ++
      (ofOutputs view accepts false ds ds).invalid).Perm ds := by
  have hnone : (ds.filter fun d => !accepts (view d).semantics).filter
      (fun d => (view d).semantics ∉ ds.map fun d => (view d).semantics) = [] := by
    rw [List.filter_eq_nil_iff]
    intro d hd
    simpa using ⟨d, List.mem_of_mem_filter hd, rfl⟩
  rw [invalid_ofOutputs, hnone, List.append_nil]
  exact List.filter_append_perm (fun d => accepts (view d).semantics) ds

/-- **Who has to be pushed apart.**  Sorting the derivations of two outputs one by one gives the
same as selecting them.  Invalid are the rejected derivations of the first output, and behind them
those of the second one whose logical form the first one does not have, both in order; valid are,
under soft updates, the accepted ones of the second output in order.  So nothing is valid and
invalid, a rejected logical form counts as often as in the first output that has it, and an output
that comes twice is split in two. -/
theorem ofOutputs_sorts :
    ofOutputs view accepts hard real good = sort view accepts hard real good ∧
    let form d := (view d).semantics
    let rejected (ds : List δ) := ds.filter fun d => !accepts (form d)
    let parts := ofOutputs view accepts hard real good
    let same := ofOutputs view accepts false good good
    parts.invalid =
        rejected real ++ (rejected good).filter (fun d => form d ∉ real.map form) ∧
      (ofOutputs view accepts false real good).valid = good.filter (fun d => accepts (form d)) ∧
      parts.valid.Disjoint parts.invalid ∧
      (∀ t, (parts.invalid.map form).count t =
        if accepts t then 0
        else if t ∈ real.map form then (real.map form).count t
        else (good.map form).count t) ∧
      (same.valid ++ same.invalid).Perm good :=
  ⟨ofOutputs_eq_sort view accepts hard real good, invalid_ofOutputs view accepts hard real good,
    rfl, disjoint_ofOutputs view accepts hard real good, count_invalid view accepts hard real good,
    perm_ofOutputs_self view accepts good⟩

end Partition

end LogicalForms
