import Mathlib.Data.List.Induction
import Mathlib.Data.List.Nodup
import Mathlib.Tactic.Common

/-!
# First places

`List.eraseDups` keeps the first place of each member of a list.  The same comes about if one member
after the other is appended unless it is there already (`foldl_flag`), so facts about first places
are shown by induction from the end of the list.

* `nodup_eraseDups` — no member comes twice;
* `eraseDups_map` — members that a function keeps apart keep their first places;
* `pairwise_eraseDups_map` — first places are in the order of the list.
-/

namespace LogicalForms

variable {β γ : Type} [BEq γ] [LawfulBEq γ]

/-- Appends a member, unless it is there already. -/
def flag (xs : List γ) (x : γ) : List γ := if x ∈ xs then xs else xs ++ [x]

theorem flag_of_mem {xs : List γ} {x : γ} (h : x ∈ xs) : flag xs x = xs := if_pos h

theorem flag_of_notMem {xs : List γ} {x : γ} (h : x ∉ xs) : flag xs x = xs ++ [x] := if_neg h

theorem eraseDups_append_singleton (xs : List γ) (x : γ) :
    (xs ++ [x]).eraseDups = flag xs.eraseDups x := by
  have hsingle : [x].eraseDups = [x] := by
    rw [List.eraseDups_cons]
    rfl
  rw [List.eraseDups_append, flag]
  by_cases hx : x ∈ xs
  · simp [List.removeAll, hx]
  · simp [List.removeAll, hx, hsingle]

theorem foldl_flag (xs : List γ) : xs.foldl flag [] = xs.eraseDups := by
  induction xs using List.reverseRecOn with
  | nil => rfl
  | append_singleton xs x ih =>
    rw [List.foldl_append, List.foldl_cons, List.foldl_nil, ih, eraseDups_append_singleton]

theorem nodup_eraseDups (xs : List γ) : xs.eraseDups.Nodup := by
  induction xs using List.reverseRecOn with
  | nil => exact .nil
  | append_singleton xs x ih =>
    rw [eraseDups_append_singleton, flag]
    split_ifs with hx
    · exact ih
    · exact ih.append (List.nodup_singleton x) (by simpa using hx)

/-- **Members that are kept apart keep their first places.** -/
theorem eraseDups_map [BEq β] [LawfulBEq β] {f : β → γ} {xs : List β}
    (h : ∀ x ∈ xs, ∀ y ∈ xs, f x = f y → x = y) : (xs.map f).eraseDups = xs.eraseDups.map f := by
  induction xs using List.reverseRecOn with
  | nil => rfl
  | append_singleton xs x ih =>
    have hinit : (xs.map f).eraseDups = xs.eraseDups.map f :=
      ih fun y hy z hz => h y (by simp [hy]) z (by simp [hz])
    rw [List.map_append, List.map_singleton, eraseDups_append_singleton,
      eraseDups_append_singleton, hinit]
    by_cases hx : x ∈ xs.eraseDups
    · rw [flag_of_mem hx, flag_of_mem (List.mem_map_of_mem hx)]
    · have hfx : f x ∉ xs.eraseDups.map f := by
        intro hmem
        obtain ⟨y, hy, heq⟩ := List.mem_map.1 hmem
        have hyx : y = x := h y (by simp [List.mem_eraseDups.1 hy]) x (by simp) heq
        exact hx (hyx ▸ hy)
      rw [flag_of_notMem hx, flag_of_notMem hfx, List.map_append, List.map_singleton]

/-- **First places are in order.**  In an ordered list, something that belongs to `x` comes before
all that belongs to `y`, if `x` is met before `y`. -/
theorem pairwise_eraseDups_map {r : β → β → Prop} (f : β → γ) {ps : List β} (hps : ps.Pairwise r) :
    (ps.map f).eraseDups.Pairwise fun x y => ∃ p ∈ ps, f p = x ∧ ∀ q ∈ ps, f q = y → r p q := by
  induction ps using List.reverseRecOn with
  | nil => exact .nil
  | append_singleton ps p ih =>
    obtain ⟨hinit, -, hlast⟩ := List.pairwise_append.1 hps
    -- who is met in the list so far is met before the last one, too
    have hmet : ∀ x y, (∃ q ∈ ps, f q = x ∧ ∀ q' ∈ ps, f q' = y → r q q') →
        ∃ q ∈ ps ++ [p], f q = x ∧ ∀ q' ∈ ps ++ [p], f q' = y → r q q' := by
      rintro x y ⟨q, hq, rfl, hbefore⟩
      refine ⟨q, List.mem_append_left _ hq, rfl, fun q' hq' hy => ?_⟩
      rcases List.mem_append.1 hq' with hq' | hq'
      · exact hbefore q' hq' hy
      · exact hlast q hq q' hq'
    have hall := (ih hinit).imp fun {x y} => hmet x y
    rw [List.map_append, List.map_singleton, eraseDups_append_singleton, flag]
    split_ifs with hp
    · exact hall
    · refine List.pairwise_append.2 ⟨hall, List.pairwise_singleton _ _, fun x hx y hy => ?_⟩
      rw [List.mem_eraseDups, List.mem_map] at hx hp
      obtain ⟨q, hq, rfl⟩ := hx
      obtain rfl := List.mem_singleton.1 hy
      exact hmet (f q) (f p) ⟨q, hq, rfl, fun q' hq' hy => absurd ⟨q', hq', hy⟩ hp⟩

end LogicalForms
