import Mathlib.Data.List.Nodup
import Mathlib.Tactic.Common

/-!
# Association lists

`List.lookup` gives the first entry of a key.

* `lookup_eq_none_iff_notMem` — the keys that have an entry;
* `mem_of_lookup_eq_some`, `lookup_eq_some_of_mem` — what is found is an entry, and every entry is
  found if no key comes twice;
* `lookup_map_snd` — what is found after all values are changed.
-/

namespace LogicalForms

variable {α β : Type} [BEq α] [LawfulBEq α] {l : List (α × β)} {k : α} {x : β}

theorem lookup_eq_none_iff_notMem : l.lookup k = none ↔ k ∉ l.map Prod.fst := by
  rw [List.lookup_eq_none_iff, List.mem_map, not_exists]
  refine forall_congr' fun p => ?_
  rw [not_and, bne_iff_ne]
  exact imp_congr_right fun _ => ne_comm

theorem mem_of_lookup_eq_some (h : l.lookup k = some x) : (k, x) ∈ l := by
  obtain ⟨l₁, l₂, rfl, -⟩ := List.lookup_eq_some_iff.1 h
  simp

theorem key_mem_of_lookup_eq_some (h : l.lookup k = some x) : k ∈ l.map Prod.fst :=
  List.mem_map.2 ⟨(k, x), mem_of_lookup_eq_some h, rfl⟩

theorem value_mem_of_lookup_eq_some (h : l.lookup k = some x) : x ∈ l.map Prod.snd :=
  List.mem_map.2 ⟨(k, x), mem_of_lookup_eq_some h, rfl⟩

theorem lookup_eq_some_of_mem (hl : (l.map Prod.fst).Nodup) (h : (k, x) ∈ l) :
    l.lookup k = some x := by
  obtain ⟨l₁, l₂, rfl⟩ := List.append_of_mem h
  rw [List.map_append, List.nodup_append] at hl
  have hnone : l₁.lookup k = none :=
    lookup_eq_none_iff_notMem.2 fun hk => hl.2.2 k hk k (by simp) rfl
  rw [List.lookup_append, hnone]
  simp

omit [LawfulBEq α] in
theorem lookup_map_snd {γ : Type} (f : β → γ) (l : List (α × β)) (k : α) :
    (l.map (Prod.map id f)).lookup k = (l.lookup k).map f := by
  induction l with
  | nil => rfl
  | cons entry l ih =>
    rw [List.map_cons, List.lookup_cons, List.lookup_cons, ih, Prod.map_fst, id]
    cases k == entry.1 <;> rfl

end LogicalForms
