import LogicalForms.Proofs.Sexp.Spelling

/-!
# Where reading stops

A text falls into a part that is read and a rest of which nothing can be read, not even a blank
(`Sexp.LongestPart`).  There is one such part, and whatever else can be read at the start of the
text is a piece of it (`Sexp.LongestPart.prefix_of_spells`).

The reader finds it (`Sexp.exists_longestPart`): if the rest is empty it gives the expressions, and
otherwise the number of bytes before the rest.  It works on a stack of open lists, so it has to
get over a list that is never closed: within such a list there is no error other than the place of
the outermost parenthesis (`Sexp.closes_or_run_eq_error`).
-/

namespace LogicalForms.Sexp

open Text

/-! ### Rests -/

/-- Nothing of the text can be read, not even a blank. -/
def Stuck (s : List Char) : Prop := ∀ es part, part <+: s → Spells es part → part = []

theorem stuck_nil : Stuck [] := fun _ _ hpart _ => List.prefix_nil.1 hpart

/-- The text goes on with expressions and the parenthesis that closes the list around them. -/
def Closes (s : List Char) : Prop :=
  ∃ items body rest, s = body ++ ')' :: rest ∧ Spells items body

/-- Nothing can be read of a text that starts with neither a blank, nor an atom, nor a list that is
closed. -/
theorem stuck_cons {c : Char} {s : List Char} (hblank : isBlank c = false)
    (hatom : isAtomChar c = false) (hlist : c = '(' → ¬ Closes s) : Stuck (c :: s) := by
  rintro es part ⟨rest, hrest⟩ hspells
  cases hspells with
  | nil => rfl
  | blank hc _ =>
    obtain ⟨rfl, -⟩ := List.cons.inj hrest
    rw [hblank] at hc
    cases hc
  | @atom chars _ _ hword _ _ =>
    obtain ⟨d, chars, rfl⟩ := List.exists_cons_of_ne_nil hword.1
    obtain ⟨rfl, -⟩ := List.cons.inj hrest
    have hchar := hword.2 d (by simp)
    rw [hatom] at hchar
    cases hchar
  | @list items _ body tail hbody _ =>
    obtain ⟨rfl, rfl⟩ := List.cons.inj hrest
    exact absurd ⟨items, body, tail ++ rest, by simp, hbody⟩ (hlist rfl)

theorem Stuck.delimited {s : List Char} (h : Stuck s) : Delimited s := by
  cases s with
  | nil => exact delimited_nil
  | cons c s =>
    refine delimited_cons s (eq_false_of_ne_true fun hatom => ?_)
    have hword : IsWord [c] := ⟨by simp, by simpa using hatom⟩
    have hspells : Spells [.atom (String.ofList [c])] ([c] ++ []) := .atom hword delimited_nil .nil
    exact absurd (h _ _ ⟨s, rfl⟩ hspells) (by simp)

/-! ### The part that is read -/

/-- The text is `es` up to a rest of which nothing can be read. -/
structure LongestPart (s : List Char) (es : List Sexp) (part rest : List Char) : Prop where
  eq_append : s = part ++ rest
  spells : Spells es part
  stuck : Stuck rest

theorem Stuck.longestPart {s : List Char} (h : Stuck s) : LongestPart s [] [] s := ⟨rfl, .nil, h⟩

section LongestPart

variable {s part rest : List Char} {es : List Sexp}

theorem LongestPart.blank {c : Char} (hc : isBlank c = true) (h : LongestPart s es part rest) :
    LongestPart (c :: s) es (c :: part) rest :=
  ⟨by rw [h.eq_append, List.cons_append], .blank hc h.spells, h.stuck⟩

theorem LongestPart.atom {chars : List Char} (hword : IsWord chars) (hs : Delimited s)
    (h : LongestPart s es part rest) :
    LongestPart (chars ++ s) (.atom (String.ofList chars) :: es) (chars ++ part) rest := by
  obtain ⟨rfl, hspells, hstuck⟩ := h
  exact ⟨(List.append_assoc _ _ _).symm, .atom hword hs.of_append hspells, hstuck⟩

theorem LongestPart.list {items : List Sexp} {body : List Char} (hbody : Spells items body)
    (h : LongestPart s es part rest) :
    LongestPart ('(' :: (body ++ ')' :: s)) (.list items :: es) ('(' :: (body ++ ')' :: part))
      rest := by
  obtain ⟨rfl, hspells, hstuck⟩ := h
  exact ⟨by simp, .list hbody hspells, hstuck⟩

/-- Behind a part that is read, the reader can be started again. -/
theorem Spells.of_append {es es' : List Sexp} {part rest : List Char}
    (h : Spells es' (part ++ rest)) (hpart : Spells es part) (hrest : Delimited rest) :
    ∃ es'', Spells es'' rest := by
  have hread := readAll_of_spells h
  rw [readAll, hpart.run 0 hrest, Progress.addAll_done] at hread
  cases continues_of_run hread with
  | done hspells => exact ⟨_, hspells⟩

/-- **Whatever can be read at the start of the text is a piece of the longest part.** -/
theorem LongestPart.prefix_of_spells (h : LongestPart s es part rest) {es' : List Sexp}
    {part' : List Char} (hpart' : part' <+: s) (hspells : Spells es' part') : part' <+: part := by
  obtain ⟨rfl, hpart, hstuck⟩ := h
  have hprefix : part <+: part ++ rest := List.prefix_append part rest
  rcases List.prefix_or_prefix_of_prefix hpart' hprefix with hle | ⟨more, rfl⟩
  · exact hle
  · -- what is longer would read something of the rest
    have hmore : more <+: rest := (List.prefix_append_right_inj part).1 hpart'
    have hdelimited : Delimited more := by
      obtain ⟨tail, rfl⟩ := hmore
      exact hstuck.delimited.of_append
    obtain ⟨es'', hes''⟩ := hspells.of_append hpart hdelimited
    obtain rfl : more = [] := hstuck es'' more hmore hes''
    exact (List.append_nil part).symm ▸ List.prefix_rfl

theorem LongestPart.unique (h : LongestPart s es part rest) {es' : List Sexp}
    {part' rest' : List Char} (h' : LongestPart s es' part' rest') :
    part' = part ∧ rest' = rest ∧ es' = es := by
  have hpart : part' = part :=
    (h.prefix_of_spells ⟨rest', h'.eq_append.symm⟩ h'.spells).eq_of_length_le
      (h'.prefix_of_spells ⟨rest, h.eq_append.symm⟩ h.spells).length_le
  subst hpart
  have hrest : rest' = rest := List.append_cancel_left (h'.eq_append.symm.trans h.eq_append)
  have hread : Except.ok es' = Except.ok es :=
    (readAll_of_spells h'.spells).symm.trans (readAll_of_spells h.spells)
  exact ⟨rfl, hrest, Except.ok.inj hread⟩

end LongestPart

/-! ### The reader -/

theorem Progress.outermost?_add (e : Sexp) (p : Progress) :
    (p.add e).outermost? = p.outermost? := by
  obtain ⟨done, frames⟩ := p
  rcases frames with _ | ⟨f, _ | ⟨g, fs⟩⟩ <;> rfl

theorem Progress.outermost?_push {p : Progress} {place : Nat} (h : p.outermost? = some place)
    (f : Frame) : Progress.outermost? { p with frames := f :: p.frames } = some place := by
  obtain ⟨done, frames⟩ := p
  cases frames with
  | nil => cases h
  | cons g fs => exact h

/-- **Within a list that is never closed, all errors are at the outermost parenthesis.** -/
theorem closes_or_run_eq_error {p : Progress} {place : Nat} (h : p.outermost? = some place)
    (offset : Nat) (s : List Char) :
    Closes s ∨ p.run (tokens offset s) = .error place := by
  induction s using text_induction generalizing p offset with
  | nil =>
    right
    simp [tokens, Progress.run, Progress.finish, h]
  | blank c s hblank ih =>
    rw [tokens_cons_blank _ _ hblank]
    rcases ih h (offset + c.utf8Size) with ⟨items, body, rest, rfl, hbody⟩ | hrun
    · exact .inl ⟨items, c :: body, rest, rfl, .blank hblank hbody⟩
    · exact .inr hrun
  | atom chars s hword hs ih =>
    rw [tokens_append_atom offset hword hs]
    rcases ih (p.outermost?_add (.atom (String.ofList chars)) ▸ h) _ with
      ⟨items, body, rest, rfl, hbody⟩ | hrun
    · exact .inl ⟨_, chars ++ body, rest, (List.append_assoc _ _ _).symm,
        .atom hword hs.of_append hbody⟩
    · exact .inr hrun
  | stray c s hspace hblank =>
    right
    rw [tokens_cons_stray _ _ hspace hblank]
    simp [Progress.run, Progress.step, h]
  | opening s ih =>
    rcases ih s List.suffix_rfl (Progress.outermost?_push h ⟨offset, []⟩) (offset + 1) with
      ⟨items, body, rest, rfl, hbody⟩ | hrun
    · -- the list is closed, and the one around it may be
      rw [Progress.run_list hbody.run]
      have hsuffix : rest <:+ body ++ ')' :: rest := ⟨body ++ [')'], by simp⟩
      rcases ih rest hsuffix (p.outermost?_add (.list items) ▸ h) _ with
        ⟨items', body', rest', rfl, hbody'⟩ | hrun
      · exact .inl ⟨_, _, rest', by simp, .list hbody hbody'⟩
      · exact .inr hrun
    · exact .inr hrun
  | closing s ih => exact .inl ⟨[], [], s, rfl, .nil⟩

/-- **The reader finds the longest part.** -/
theorem exists_longestPart (offset : Nat) (done : List Sexp) (s : List Char) :
    ∃ es part rest, LongestPart s es part rest ∧
      Progress.run ⟨done, []⟩ (tokens offset s) =
        if rest = [] then .ok (done.reverse ++ es) else .error (offset + byteLength part) := by
  induction s using text_induction generalizing offset done with
  | nil => exact ⟨[], [], [], stuck_nil.longestPart, by simp [tokens, Progress.run]; rfl⟩
  | blank c s hblank ih =>
    obtain ⟨es, part, rest, hpart, hrun⟩ := ih (offset + c.utf8Size) done
    refine ⟨es, c :: part, rest, hpart.blank hblank, ?_⟩
    rw [tokens_cons_blank _ _ hblank, hrun, byteLength, Nat.add_assoc]
  | atom chars s hword hs ih =>
    obtain ⟨es, part, rest, hpart, hrun⟩ :=
      ih (offset + byteLength chars) (.atom (String.ofList chars) :: done)
    refine ⟨_, _, rest, hpart.atom hword hs, ?_⟩
    rw [tokens_append_atom offset hword hs, byteLength_append, ← Nat.add_assoc]
    rw [List.reverse_cons, List.append_assoc] at hrun
    exact hrun
  | stray c s hspace hblank =>
    have hatom : isAtomChar c = false := isAtomChar_eq_false_iff.2 (.inl hspace)
    have hopening : c = '(' → ¬ Closes s := by
      rintro rfl
      exact absurd hspace (by decide)
    refine ⟨[], [], c :: s, (stuck_cons hblank hatom hopening).longestPart, ?_⟩
    rw [tokens_cons_stray _ _ hspace hblank]
    rfl
  | opening s ih =>
    by_cases hcloses : Closes s
    · obtain ⟨items, body, rest₀, rfl, hbody⟩ := hcloses
      have hsuffix : rest₀ <:+ body ++ ')' :: rest₀ := ⟨body ++ [')'], by simp⟩
      obtain ⟨es, part, rest, hpart, hrun⟩ :=
        ih rest₀ hsuffix (offset + byteLength ('(' :: (body ++ [')']))) (.list items :: done)
      refine ⟨_, _, rest, hpart.list hbody, ?_⟩
      have htext : '(' :: (body ++ ')' :: part) = '(' :: (body ++ [')']) ++ part := by simp
      rw [Progress.run_list hbody.run, htext, byteLength_append, ← Nat.add_assoc]
      rw [List.reverse_cons, List.append_assoc] at hrun
      exact hrun
    · have houtermost : Progress.outermost? ⟨done, [⟨offset, []⟩]⟩ = some offset := rfl
      have hrun := (closes_or_run_eq_error houtermost (offset + 1) s).resolve_left hcloses
      exact ⟨[], [], _, (stuck_cons (by decide) (by decide) fun _ => hcloses).longestPart, hrun⟩
  | closing s ih =>
    have hopening : ')' = '(' → ¬ Closes s := fun h => absurd h (by decide)
    exact ⟨[], [], _, (stuck_cons (by decide) (by decide) hopening).longestPart, rfl⟩

theorem LongestPart.readAll_eq {s part rest : List Char} {es : List Sexp}
    (h : LongestPart s es part rest) :
    readAll s = if rest = [] then .ok es else .error (byteLength part) := by
  obtain ⟨es', part', rest', h', hrun⟩ := exists_longestPart 0 [] s
  obtain ⟨rfl, rfl, rfl⟩ := h.unique h'
  rw [readAll, hrun, Nat.zero_add]
  rfl

/-- **A text that is not read fails behind its longest prefix that is.** -/
theorem exists_prefix_of_readAll_eq_error {s : List Char} {offset : Nat}
    (h : readAll s = .error offset) :
    ∃ part, part <+: s ∧ byteLength part = offset ∧ (∃ es, readAll part = .ok es) ∧
      ∀ part', part' <+: s → (∃ es, readAll part' = .ok es) → part' <+: part := by
  obtain ⟨es, part, rest, hpart, -⟩ := exists_longestPart 0 [] s
  rw [hpart.readAll_eq] at h
  refine ⟨part, ⟨rest, hpart.eq_append.symm⟩, ?_, ⟨es, readAll_of_spells hpart.spells⟩, ?_⟩
  · split_ifs at h
    exact Except.error.inj h
  · rintro part' hprefix ⟨es', hread⟩
    exact hpart.prefix_of_spells hprefix (readAll_eq_ok_iff.1 hread)

end LogicalForms.Sexp
