import LogicalForms.Sexp.Reader
import LogicalForms.Text.Pointer
import Mathlib.Tactic.Common

/-!
# Texts of nested expressions

`Sexp.Spells es s` says that the text `s` is the sequence of expressions `es`: a word stands for an
atom, a sequence in parentheses for a list, and blanks may stand before, between and after the
expressions.  Only two words need to be kept apart, by a blank or a parenthesis.

The reader accepts exactly the texts that spell something, and gives what they spell
(`Sexp.readAll_eq_ok_iff`).  What it still needs in order to accept a text half way through is
`Continues`: one closing parenthesis for each open list.

In between stand the tokens.  What follows an atom has to keep it from growing (`Delimited`), and
then the tokens of the atom and of the rest do not join (`tokens_append_atom`).
So statements about the reader are proved along the text, one token at a time (`text_induction`).
-/

namespace LogicalForms.Sexp

open Text

/-! ### Tokens -/

/-- The characters are a word: there is one, and all are characters of atoms. -/
def IsWord (chars : List Char) : Prop := chars ≠ [] ∧ ∀ c ∈ chars, isAtomChar c = true

theorem isAtomChar_iff {c : Char} :
    isAtomChar c = true ↔ isSpace c = false ∧ c ≠ '(' ∧ c ≠ ')' := by
  simp [isAtomChar, and_assoc]

theorem isAtomChar_eq_false_iff {c : Char} :
    isAtomChar c = false ↔ isSpace c = true ∨ c = '(' ∨ c = ')' := by
  rw [isAtomChar, Bool.not_eq_false']
  simp [or_assoc]

theorem isBlank_of_isAtomChar {c : Char} (h : isAtomChar c = true) : isBlank c = false := by
  cases hb : isBlank c with
  | false => rfl
  | true => simp [isAtomChar, isSpace_of_isBlank hb] at h

theorem tokens_cons_atomChar (offset : Nat) {c : Char} (cs : List Char) (h : isAtomChar c = true) :
    tokens offset (c :: cs) = consAtomChar offset c (tokens (offset + c.utf8Size) cs) := by
  obtain ⟨hspace, hopen, hclose⟩ := isAtomChar_iff.1 h
  simp [tokens, isBlank_of_isAtomChar h, hspace, hopen, hclose]

theorem tokens_cons_blank (offset : Nat) {c : Char} (cs : List Char) (h : isBlank c = true) :
    tokens offset (c :: cs) = tokens (offset + c.utf8Size) cs := by
  simp [tokens, h]

theorem tokens_cons_opening (offset : Nat) (cs : List Char) :
    tokens offset ('(' :: cs) = (offset, .opening) :: tokens (offset + 1) cs := rfl

theorem tokens_cons_closing (offset : Nat) (cs : List Char) :
    tokens offset (')' :: cs) = (offset, .closing) :: tokens (offset + 1) cs := rfl

theorem tokens_cons_stray (offset : Nat) {c : Char} (cs : List Char) (hspace : isSpace c = true)
    (hblank : isBlank c = false) :
    tokens offset (c :: cs) = (offset, .stray c) :: tokens (offset + c.utf8Size) cs := by
  have hopen : c ≠ '(' := by
    rintro rfl
    exact absurd hspace (by decide)
  have hclose : c ≠ ')' := by
    rintro rfl
    exact absurd hspace (by decide)
  simp [tokens, hspace, hblank, hopen, hclose]

theorem mem_consAtomChar {offset : Nat} {c : Char} {ts : List (Nat × Token)} {t : Nat × Token}
    (h : t ∈ consAtomChar offset c ts) : t.1 = offset ∨ t ∈ ts := by
  unfold consAtomChar at h
  split at h
  · split_ifs at h
    · rcases List.mem_cons.1 h with rfl | h
      · exact .inl rfl
      · exact .inr (List.mem_cons_of_mem _ h)
    · rcases List.mem_cons.1 h with rfl | h
      · exact .inl rfl
      · exact .inr h
  · rcases List.mem_cons.1 h with rfl | h
    · exact .inl rfl
    · exact .inr h

theorem offset_le_of_mem_tokens {offset : Nat} {s : List Char} {t : Nat × Token}
    (h : t ∈ tokens offset s) : offset ≤ t.1 := by
  induction s generalizing offset with
  | nil => cases h
  | cons c cs ih =>
    have hrest : t ∈ tokens (offset + c.utf8Size) cs → offset ≤ t.1 := fun h => by
      have := ih h
      omega
    simp only [tokens] at h
    split_ifs at h
    · exact hrest h
    · rcases List.mem_cons.1 h with rfl | h
      · exact Nat.le_refl _
      · exact hrest h
    · rcases List.mem_cons.1 h with rfl | h
      · exact Nat.le_refl _
      · exact hrest h
    · rcases List.mem_cons.1 h with rfl | h
      · exact Nat.le_refl _
      · exact hrest h
    · rcases mem_consAtomChar h with heq | h
      · exact Nat.le_of_eq heq.symm
      · exact hrest h

/-- The text does not go on with a character of an atom. -/
def Delimited (s : List Char) : Prop := ∀ c ∈ s.head?, isAtomChar c = false

theorem delimited_nil : Delimited [] := by simp [Delimited]

theorem delimited_cons {c : Char} (s : List Char) (h : isAtomChar c = false) :
    Delimited (c :: s) := by simpa [Delimited] using h

theorem Delimited.append {s rest : List Char} (hs : Delimited s) (hrest : Delimited rest) :
    Delimited (s ++ rest) := by
  cases s with
  | nil => exact hrest
  | cons c cs => exact hs

theorem Delimited.of_append {s rest : List Char} (h : Delimited (s ++ rest)) : Delimited s := by
  cases s with
  | nil => exact delimited_nil
  | cons c cs => exact h

theorem consAtomChar_tokens {offset : Nat} {c : Char} {s : List Char} (h : Delimited s) :
    consAtomChar offset c (tokens (offset + c.utf8Size) s) =
      (offset, .atom [c]) :: tokens (offset + c.utf8Size) s := by
  cases s with
  | nil => rfl
  | cons d ds =>
    by_cases hblank : isBlank d = true
    · -- the next token starts behind the blank, so it does not touch the atom
      rw [tokens_cons_blank _ _ hblank]
      unfold consAtomChar
      split
      · next next chars rest hrest =>
        have hle : offset + c.utf8Size + d.utf8Size ≤ next :=
          offset_le_of_mem_tokens (t := (next, .atom chars)) (by rw [hrest]; simp)
        have hpos := d.utf8Size_pos
        rw [if_neg (by omega), hrest]
      · rfl
    · simp only [tokens, hblank, Bool.false_eq_true, if_false]
      by_cases hopen : d = '('
      · simp [hopen, consAtomChar]
      · by_cases hclose : d = ')'
        · simp [hclose, consAtomChar]
        · have hspace : isSpace d = true := by
            simpa [hopen, hclose] using isAtomChar_eq_false_iff.1 (h d rfl)
          simp [hopen, hclose, hspace, consAtomChar]

theorem tokens_append_atom (offset : Nat) {chars rest : List Char} (h : IsWord chars)
    (hrest : Delimited rest) :
    tokens offset (chars ++ rest) =
      (offset, .atom chars) :: tokens (offset + byteLength chars) rest := by
  obtain ⟨hne, hchars⟩ := h
  induction chars generalizing offset with
  | nil => exact absurd rfl hne
  | cons c cs ih =>
    have hc : isAtomChar c = true := hchars c (by simp)
    rw [List.cons_append, tokens_cons_atomChar _ _ hc]
    by_cases hcs : cs = []
    · subst hcs
      exact consAtomChar_tokens hrest
    · rw [ih (offset + c.utf8Size) hcs fun d hd => hchars d (by simp [hd])]
      simp [consAtomChar, byteLength, Nat.add_assoc]

theorem isWord_takeWhile {s : List Char} (h : s.takeWhile isAtomChar ≠ []) :
    IsWord (s.takeWhile isAtomChar) :=
  ⟨h, fun c hc => List.all_eq_true.1 List.all_takeWhile c hc⟩

theorem delimited_dropWhile (s : List Char) : Delimited (s.dropWhile isAtomChar) := by
  intro c hc
  have hhead := List.head?_dropWhile_not isAtomChar s
  rw [Option.mem_def.1 hc] at hhead
  exact hhead

theorem exists_word_append {c : Char} (hc : isAtomChar c = true) (cs : List Char) :
    ∃ chars rest, c :: cs = chars ++ rest ∧ IsWord chars ∧ Delimited rest := by
  have hne : (c :: cs).takeWhile isAtomChar ≠ [] := by
    rw [List.takeWhile_cons_of_pos hc]
    exact List.cons_ne_nil _ _
  exact ⟨_, _, List.takeWhile_append_dropWhile.symm, isWord_takeWhile hne, delimited_dropWhile _⟩

/-- Induction along a text, one token at a time.  Behind an opening parenthesis the text can be
taken up anywhere, since the list is read in one go. -/
@[elab_as_elim]
theorem text_induction {motive : List Char → Prop} (s : List Char) (nil : motive [])
    (blank : ∀ c s, isBlank c = true → motive s → motive (c :: s))
    (atom : ∀ chars s, IsWord chars → Delimited s → motive s → motive (chars ++ s))
    (stray : ∀ c s, isSpace c = true → isBlank c = false → motive (c :: s))
    (opening : ∀ s, (∀ rest, rest <:+ s → motive rest) → motive ('(' :: s))
    (closing : ∀ s, motive s → motive (')' :: s)) : motive s := by
  induction hn : s.length using Nat.strongRecOn generalizing s with
  | ind n ih =>
  subst hn
  cases s with
  | nil => exact nil
  | cons c cs =>
    have hcs : ∀ rest, rest <:+ cs → motive rest := fun rest h =>
      ih rest.length (Nat.lt_succ_of_le h.length_le) rest rfl
    by_cases hatom : isAtomChar c = true
    · obtain ⟨chars, rest, htext, hword, hrest⟩ := exists_word_append hatom cs
      have hlength : rest.length < (c :: cs).length := by
        have := List.length_pos_iff.2 hword.1
        rw [htext, List.length_append]
        omega
      rw [htext]
      exact atom chars rest hword hrest (ih rest.length hlength rest rfl)
    · rcases isAtomChar_eq_false_iff.1 (eq_false_of_ne_true hatom) with hspace | rfl | rfl
      · cases hblank : isBlank c with
        | true => exact blank c cs hblank (hcs cs List.suffix_rfl)
        | false => exact stray c cs hspace hblank
      · exact opening cs hcs
      · exact closing cs (hcs cs List.suffix_rfl)

/-! ### Texts -/

/-- The text is this sequence of expressions. -/
inductive Spells : List Sexp → List Char → Prop
  | nil : Spells [] []
  | blank {c : Char} {es : List Sexp} {s : List Char} (hc : isBlank c = true) (h : Spells es s) :
      Spells es (c :: s)
  | atom {chars s : List Char} {es : List Sexp} (hword : IsWord chars) (hs : Delimited s)
      (h : Spells es s) : Spells (.atom (String.ofList chars) :: es) (chars ++ s)
  | list {items es : List Sexp} {body s : List Char} (hbody : Spells items body)
      (h : Spells es s) : Spells (.list items :: es) ('(' :: (body ++ ')' :: s))

/-! ### What is spelled is read -/

/-- The members of a list, read one after the other. -/
def Progress.addAll (es : List Sexp) (p : Progress) : Progress := es.foldl (fun p e => p.add e) p

theorem Progress.addAll_opened (es : List Sexp) (done : List Sexp) (f : Frame)
    (fs : List Frame) :
    Progress.addAll es ⟨done, f :: fs⟩ = ⟨done, ⟨f.offset, es.reverse ++ f.items⟩ :: fs⟩ := by
  induction es generalizing f with
  | nil => rfl
  | cons e es ih =>
    have := ih ⟨f.offset, e :: f.items⟩
    simp only [addAll, add, List.foldl_cons] at this ⊢
    rw [this]
    simp

theorem Progress.run_list {items : List Sexp} {body : List Char}
    (hbody : ∀ (offset : Nat) {rest : List Char}, Delimited rest → ∀ p : Progress,
      p.run (tokens offset (body ++ rest)) =
        (p.addAll items).run (tokens (offset + byteLength body) rest))
    (offset : Nat) (rest : List Char) (p : Progress) :
    p.run (tokens offset ('(' :: (body ++ ')' :: rest))) =
      (p.add (.list items)).run (tokens (offset + byteLength ('(' :: (body ++ [')']))) rest) := by
  have hclose : Delimited (')' :: rest) := delimited_cons _ (by decide)
  have hplace : offset + byteLength ('(' :: (body ++ [')'])) =
      offset + 1 + byteLength body + 1 := by
    have hopening : '('.utf8Size = 1 := rfl
    have hclosing : ')'.utf8Size = 1 := rfl
    simp only [byteLength, byteLength_append]
    omega
  rw [tokens_cons_opening, hplace]
  simp only [Progress.run, Progress.step]
  rw [hbody _ hclose, tokens_cons_closing, Progress.addAll_opened]
  simp only [Progress.run, Progress.step, List.append_nil, List.reverse_reverse]

/-- Reading a sequence of expressions adds them one after the other, whatever was read before. -/
theorem Spells.run {es : List Sexp} {s : List Char} (h : Spells es s) (offset : Nat)
    {rest : List Char} (hrest : Delimited rest) (p : Progress) :
    p.run (tokens offset (s ++ rest)) =
      (p.addAll es).run (tokens (offset + byteLength s) rest) := by
  induction h generalizing offset rest p with
  | nil => rfl
  | @blank c es s hc _ ih =>
    rw [List.cons_append, tokens_cons_blank _ _ hc, ih _ hrest, byteLength, Nat.add_assoc]
  | @atom chars s es hword hs _ ih =>
    rw [List.append_assoc, tokens_append_atom offset hword (hs.append hrest), byteLength_append,
      ← Nat.add_assoc]
    exact ih _ hrest (p.add (.atom (String.ofList chars)))
  | @list items es body s _ _ ihbody ih =>
    have htext : '(' :: (body ++ ')' :: s) = '(' :: (body ++ [')']) ++ s := by simp
    have happend : '(' :: (body ++ ')' :: s) ++ rest = '(' :: (body ++ ')' :: (s ++ rest)) := by
      simp
    rw [happend, htext, Progress.run_list ihbody, byteLength_append, ← Nat.add_assoc]
    exact ih _ hrest (p.add (.list items))

theorem Progress.addAll_done (es done : List Sexp) :
    Progress.addAll es ⟨done, []⟩ = ⟨es.reverse ++ done, []⟩ := by
  induction es generalizing done with
  | nil => rfl
  | cons e es ih =>
    have := ih (e :: done)
    simp only [addAll, add, List.foldl_cons] at this ⊢
    rw [this]
    simp

theorem readAll_of_spells {es : List Sexp} {s : List Char} (h : Spells es s) :
    readAll s = .ok es := by
  have hrun := h.run 0 delimited_nil ⟨[], []⟩
  rw [List.append_nil, Progress.addAll_done] at hrun
  rw [readAll, hrun]
  simp [tokens, Progress.run, Progress.finish, Progress.outermost?]

/-! ### What is read is spelled -/

/-- How the text goes on where the reader stands, so that these are all expressions in the end:
after what completes the innermost open list there is its parenthesis, and so on outwards. -/
inductive Continues : Progress → List Char → List Sexp → Prop
  | done {done es : List Sexp} {s : List Char} (h : Spells es s) :
      Continues ⟨done, []⟩ s (done.reverse ++ es)
  | close {done items es : List Sexp} {f : Frame} {fs : List Frame} {body s : List Char}
      (hbody : Spells items body)
      (h : Continues (Progress.add (.list (f.items.reverse ++ items)) ⟨done, fs⟩) s es) :
      Continues ⟨done, f :: fs⟩ (body ++ ')' :: s) es

/-- An expression that is read next stands before what the text goes on with. -/
theorem Continues.of_add {p : Progress} {e : Sexp} {text s : List Char} {all : List Sexp}
    (h : Continues (p.add e) s all)
    (hspells : ∀ es body tail, s = body ++ tail → Spells es body →
      Spells (e :: es) (text ++ body)) : Continues p (text ++ s) all := by
  obtain ⟨done, frames⟩ := p
  cases frames with
  | nil =>
    change Continues ⟨e :: done, []⟩ s all at h
    cases h with
    | @done _ es _ hs =>
      rw [List.reverse_cons, List.append_assoc]
      exact .done (hspells es s [] (List.append_nil s).symm hs)
  | cons f fs =>
    change Continues ⟨done, { f with items := e :: f.items } :: fs⟩ s all at h
    cases h with
    | @close _ items _ _ _ body s hbody h =>
      rw [← List.append_assoc]
      refine .close (hspells items body _ rfl hbody) ?_
      simpa using h

theorem Continues.blank {p : Progress} {c : Char} {s : List Char} {es : List Sexp}
    (hc : isBlank c = true) (h : Continues p s es) : Continues p (c :: s) es := by
  cases h with
  | done h => exact .done (.blank hc h)
  | close hbody h => exact .close (.blank hc hbody) h

theorem Continues.atom {p : Progress} {chars rest : List Char} {es : List Sexp}
    (hword : IsWord chars) (hrest : Delimited rest)
    (h : Continues (p.add (.atom (String.ofList chars))) rest es) :
    Continues p (chars ++ rest) es := by
  refine h.of_add fun es body tail hbody hspells => .atom hword ?_ hspells
  rw [hbody] at hrest
  exact hrest.of_append

theorem Continues.opening {done es : List Sexp} {frames : List Frame} {offset : Nat}
    {s : List Char} (h : Continues ⟨done, ⟨offset, []⟩ :: frames⟩ s es) :
    Continues ⟨done, frames⟩ ('(' :: s) es := by
  cases h with
  | @close _ items _ _ _ body s hbody hrest =>
    have htext : '(' :: (body ++ ')' :: s) = '(' :: (body ++ [')']) ++ s := by simp
    rw [htext]
    refine Continues.of_add hrest fun es rest _ _ hspells => ?_
    simpa using Spells.list hbody hspells

theorem Continues.closing {done es : List Sexp} {f : Frame} {fs : List Frame} {s : List Char}
    (h : Continues (Progress.add (.list f.items.reverse) ⟨done, fs⟩) s es) :
    Continues ⟨done, f :: fs⟩ (')' :: s) es := by
  rw [← List.append_nil f.items.reverse] at h
  exact .close .nil h

theorem continues_of_run {p : Progress} {offset : Nat} {s : List Char} {es : List Sexp}
    (h : p.run (tokens offset s) = .ok es) : Continues p s es := by
  induction s using text_induction generalizing p offset with
  | nil =>
    obtain ⟨done, frames⟩ := p
    cases frames with
    | nil =>
      cases h
      have hdone : Continues ⟨done, []⟩ [] (done.reverse ++ []) := .done .nil
      rwa [List.append_nil] at hdone
    | cons f fs =>
      -- a list is still open
      simp [tokens, Progress.run, Progress.finish, Progress.outermost?, List.getLast?_cons] at h
  | blank c s hblank ih =>
    rw [tokens_cons_blank _ _ hblank] at h
    exact (ih h).blank hblank
  | atom chars s hword hs ih =>
    rw [tokens_append_atom offset hword hs] at h
    exact .atom hword hs (ih h)
  | stray c s hspace hblank =>
    rw [tokens_cons_stray _ _ hspace hblank] at h
    cases h
  | opening s ih =>
    rw [tokens_cons_opening] at h
    exact (ih s List.suffix_rfl h).opening
  | closing s ih =>
    rw [tokens_cons_closing] at h
    obtain ⟨done, frames⟩ := p
    cases frames with
    | nil => cases h
    | cons f fs => exact .closing (ih h)

/-- **The reader accepts exactly the texts that spell expressions**, and gives these. -/
theorem readAll_eq_ok_iff {s : List Char} {es : List Sexp} :
    readAll s = .ok es ↔ Spells es s := by
  refine ⟨fun h => ?_, readAll_of_spells⟩
  cases continues_of_run h with
  | done hs => exact hs

end LogicalForms.Sexp
