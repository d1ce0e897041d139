/-!
# Splitting a text at a character

Names and type tags are separated by a colon.  A reference is split at its first colon
(`splitAtFirst`), a constant at its last (`splitAtLast`), because the name of a constant may hold
colons itself.  Lines of a text and tags of a feature key are the parts between all occurrences of
a character (`splitAll`).
-/

namespace LogicalForms.Text

/-- What stands before and after the first `sep`, if there is one. -/
def splitAtFirst (sep : Char) : List Char → Option (List Char × List Char)
  | [] => none
  | c :: cs =>
    if c = sep then some ([], cs)
    else (splitAtFirst sep cs).map fun (before, after) => (c :: before, after)

/-- What stands before and after the last `sep`, if there is one. -/
def splitAtLast (sep : Char) : List Char → Option (List Char × List Char)
  | [] => none
  | c :: cs =>
    match splitAtLast sep cs with
    | some (before, after) => some (c :: before, after)
    | none => if c = sep then some ([], cs) else none

/-- The parts of a text before, between and after all occurrences of `sep`. -/
def splitAll (sep : Char) : List Char → List (List Char)
  | [] => [[]]
  | c :: cs =>
    if c = sep then [] :: splitAll sep cs
    else
      match splitAll sep cs with
      | part :: parts => (c :: part) :: parts
      | [] => [[c]]

theorem splitAll_ne_nil (sep : Char) (s : List Char) : splitAll sep s ≠ [] := by
  cases s with
  | nil => simp [splitAll]
  | cons c cs =>
    rw [splitAll]
    split
    · simp
    · split <;> simp

theorem splitAll_append (sep : Char) (before after : List Char) :
    splitAll sep (before ++ sep :: after) = splitAll sep before ++ splitAll sep after := by
  induction before with
  | nil => simp [splitAll]
  | cons c cs ih =>
    rw [List.cons_append, splitAll, splitAll]
    split
    · rw [ih, List.cons_append]
    · rw [ih]
      cases h : splitAll sep cs with
      | nil => exact absurd h (splitAll_ne_nil sep cs)
      | cons part parts => rfl

theorem splitAll_eq_singleton {sep : Char} {s : List Char} (h : sep ∉ s) :
    splitAll sep s = [s] := by
  induction s with
  | nil => rfl
  | cons c cs ih =>
    rw [List.mem_cons, not_or] at h
    rw [splitAll, if_neg (Ne.symm h.1), ih h.2]

theorem splitAtFirst_eq_some {sep : Char} {s before after : List Char}
    (h : splitAtFirst sep s = some (before, after)) :
    s = before ++ sep :: after ∧ sep ∉ before := by
  induction s generalizing before with
  | nil => simp [splitAtFirst] at h
  | cons c cs ih =>
    by_cases hc : c = sep
    · simp [splitAtFirst, hc] at h
      obtain ⟨rfl, rfl⟩ := h
      simp [hc]
    · simp only [splitAtFirst, if_neg hc, Option.map_eq_some_iff, Prod.mk.injEq] at h
      obtain ⟨⟨b, a⟩, hb, rfl, rfl⟩ := h
      obtain ⟨rfl, hn⟩ := ih hb
      exact ⟨rfl, by simp [hn, Ne.symm hc]⟩

theorem splitAtFirst_eq_none {sep : Char} {s : List Char} :
    splitAtFirst sep s = none ↔ sep ∉ s := by
  induction s with
  | nil => simp [splitAtFirst]
  | cons c cs ih =>
    by_cases hc : c = sep
    · simp [splitAtFirst, hc]
    · simp [splitAtFirst, hc, ih, Ne.symm hc]

theorem splitAtFirst_append {sep : Char} {before : List Char} (h : sep ∉ before)
    (after : List Char) : splitAtFirst sep (before ++ sep :: after) = some (before, after) := by
  induction before with
  | nil => simp [splitAtFirst]
  | cons c cs ih =>
    rw [List.mem_cons, not_or] at h
    rw [List.cons_append, splitAtFirst, if_neg (Ne.symm h.1), ih h.2]
    rfl

theorem splitAtLast_eq_none {sep : Char} {s : List Char} :
    splitAtLast sep s = none ↔ sep ∉ s := by
  induction s with
  | nil => simp [splitAtLast]
  | cons c cs ih =>
    cases h : splitAtLast sep cs with
    | some p =>
      have : sep ∈ cs := by
        by_cases hm : sep ∈ cs
        · exact hm
        · simp [ih.2 hm] at h
      simp [splitAtLast, h, this]
    | none =>
      have := ih.1 h
      by_cases hc : c = sep
      · simp [splitAtLast, h, hc]
      · simp [splitAtLast, h, hc, this, Ne.symm hc]

theorem splitAtLast_eq_some {sep : Char} {s before after : List Char}
    (h : splitAtLast sep s = some (before, after)) :
    s = before ++ sep :: after ∧ sep ∉ after := by
  induction s generalizing before with
  | nil => simp [splitAtLast] at h
  | cons c cs ih =>
    simp only [splitAtLast] at h
    split at h
    · next b a hb =>
      simp only [Option.some.injEq, Prod.mk.injEq] at h
      obtain ⟨rfl, rfl⟩ := h
      obtain ⟨rfl, hn⟩ := ih hb
      exact ⟨rfl, hn⟩
    · next hn =>
      split at h
      · next hc =>
        simp only [Option.some.injEq, Prod.mk.injEq] at h
        obtain ⟨rfl, rfl⟩ := h
        exact ⟨by simp [hc], splitAtLast_eq_none.1 hn⟩
      · simp at h

theorem splitAtLast_append {sep : Char} (before : List Char) {after : List Char}
    (h : sep ∉ after) : splitAtLast sep (before ++ sep :: after) = some (before, after) := by
  induction before with
  | nil => simp [splitAtLast, splitAtLast_eq_none.2 h]
  | cons c cs ih => simp [splitAtLast, ih]

end LogicalForms.Text
