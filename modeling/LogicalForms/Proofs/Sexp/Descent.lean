import LogicalForms.Proofs.Sexp.Balance
import LogicalForms.Proofs.Sexp.LongestPrefix
import Mathlib.Data.List.DropRight

/-!
# Reading by recursive descent

Nested expressions can be read by functions that call each other as the grammar does: an expression
is a list or an atom, with blanks around it (`Sexp.expression?`), and expressions are read one after
the other until there is none (`Sexp.expressions`).  A function that fails leaves the text as it
was, so a list that is never closed is left unread.

The part that is read in this way is the longest that can be read (`Sexp.readsLongest`), so the
reader does the same in one pass (`Sexp.readAll_eq_descend`).
-/

namespace LogicalForms.Sexp

open Text

/-! ### The descent -/

/-- Something that was read from the start of a text, and what is left of the text. -/
structure Parsed (α : Type) (bound : Nat) where
  /-- What was read. -/
  value : α
  /-- The text behind it. -/
  rest : List Char
  /-- The descent ends, since what is left is short. -/
  length_lt : rest.length < bound

/-- The text without its leading blanks. -/
def skipBlanks (s : List Char) : List Char := s.dropWhile isBlank

theorem length_skipBlanks_le (s : List Char) : (skipBlanks s).length ≤ s.length :=
  (List.dropWhile_suffix isBlank).length_le

/-- The atom at the start of the text. -/
def atom? (s : List Char) : Option (Parsed Sexp s.length) :=
  if h : s.takeWhile isAtomChar = [] then none
  else some ⟨.atom (String.ofList (s.takeWhile isAtomChar)), s.dropWhile isAtomChar, by
    have hlength := congrArg List.length (s.takeWhile_append_dropWhile (p := isAtomChar))
    have hpos := List.length_pos_iff.2 h
    rw [List.length_append] at hlength
    omega⟩

-- A call on the same text goes to a function that stands further up.
mutual

/-- The list at the start of the text, if it is closed. -/
def list? (s : List Char) : Option (Parsed Sexp s.length) :=
  match s with
  | '(' :: body =>
    let items := expressions body
    match h : skipBlanks items.rest with
    | ')' :: rest => some ⟨.list items.value, rest, by
        have hskip := length_skipBlanks_le items.rest
        have hitems := items.length_lt
        rw [h] at hskip
        simp only [List.length_cons] at hskip ⊢
        omega⟩
    | _ => none
  | _ => none
  termination_by 3 * s.length

/-- The expression at the start of the text, a list or else an atom, with the blanks around it. -/
def expression? (s : List Char) : Option (Parsed Sexp s.length) :=
  ((list? (skipBlanks s)).or (atom? (skipBlanks s))).map fun e => ⟨e.value, skipBlanks e.rest, by
    have hskip := length_skipBlanks_le s
    have hrest := length_skipBlanks_le e.rest
    have he := e.length_lt
    omega⟩
  termination_by 3 * s.length + 1
  decreasing_by
    have hskip := length_skipBlanks_le s
    omega

/-- Expressions, one after the other, until there is none. -/
def expressions (s : List Char) : Parsed (List Sexp) (s.length + 1) :=
  match expression? s with
  | none => ⟨[], s, Nat.lt_succ_self _⟩
  | some e =>
    let es := expressions e.rest
    ⟨e.value :: es.value, es.rest, by
      have he := e.length_lt
      have hes := es.length_lt
      omega⟩
  termination_by 3 * s.length + 2
  decreasing_by
    · omega
    · have he := e.length_lt
      omega

end

/-- The expressions of a text, or the number of bytes before what is left. -/
def descend (s : List Char) : Except Nat (List Sexp) :=
  let all := expressions (skipBlanks s)
  if all.rest = [] then .ok all.value else .error (byteLength s - byteLength all.rest)

/-! ### What the functions read -/

theorem LongestPart.of_skipBlanks {s part rest : List Char} {es : List Sexp}
    (h : LongestPart (skipBlanks s) es part rest) :
    LongestPart s es (s.takeWhile isBlank ++ part) rest := by
  induction s with
  | nil => exact h
  | cons c s ih =>
    cases hc : isBlank c with
    | false =>
      rw [List.takeWhile_cons_of_neg (by simp [hc])]
      rwa [skipBlanks, List.dropWhile_cons_of_neg (by simp [hc])] at h
    | true =>
      rw [List.takeWhile_cons_of_pos hc]
      rw [skipBlanks, List.dropWhile_cons_of_pos hc] at h
      exact (ih h).blank hc

/-- What is left of the text behind the expressions that are read, without blanks, is a rest of
which nothing can be read. -/
def ReadsLongest (s : List Char) : Prop :=
  ∃ part, LongestPart s (expressions s).value part (skipBlanks (expressions s).rest)

theorem atom?_eq_some {s : List Char} {a : Parsed Sexp s.length} (h : atom? s = some a) :
    ∃ chars, s = chars ++ a.rest ∧ IsWord chars ∧ Delimited a.rest ∧
      a.value = .atom (String.ofList chars) := by
  unfold atom? at h
  split_ifs at h with hchars
  obtain rfl := Option.some.inj h
  exact ⟨_, List.takeWhile_append_dropWhile.symm, isWord_takeWhile hchars,
    delimited_dropWhile s, rfl⟩

theorem atom?_eq_none {s : List Char} (h : atom? s = none) : Delimited s := by
  unfold atom? at h
  split_ifs at h with hchars
  have hdrop := List.takeWhile_append_dropWhile (p := isAtomChar) (l := s)
  rw [hchars, List.nil_append] at hdrop
  exact hdrop ▸ delimited_dropWhile s

theorem list?_eq_some {s : List Char} (ih : ∀ t, t.length < s.length → ReadsLongest t)
    {l : Parsed Sexp s.length} (h : list? s = some l) :
    ∃ items body, s = '(' :: (body ++ ')' :: l.rest) ∧ Spells items body ∧
      l.value = .list items := by
  unfold list? at h
  split at h
  · next body =>
    dsimp only at h
    split at h
    · next rest hrest =>
      obtain rfl := Option.some.inj h
      obtain ⟨part, htext, hspells, -⟩ := ih body (Nat.lt_succ_self _)
      rw [hrest] at htext
      exact ⟨_, part, congrArg _ htext, hspells, rfl⟩
    · cases h
  · cases h

theorem list?_eq_none {s : List Char} (ih : ∀ t, t.length < s.length → ReadsLongest t)
    (h : list? s = none) : ∀ t, s = '(' :: t → ¬ Closes t := by
  rintro t rfl ⟨items, body, rest, rfl, hbody⟩
  have hclosing : Stuck (')' :: rest) :=
    stuck_cons (by decide) (by decide) fun h => absurd h (by decide)
  obtain ⟨part, hpart⟩ := ih (body ++ ')' :: rest) (Nat.lt_succ_self _)
  obtain ⟨-, hrest, -⟩ := LongestPart.unique ⟨rfl, hbody, hclosing⟩ hpart
  rw [list?.eq_1] at h
  split at h
  · cases h
  · next hne => exact hne rest hrest

/-- An expression stands before the longest part of what follows it. -/
theorem longestPart_of_expression? {s : List Char}
    (ih : ∀ t, t.length < s.length → ReadsLongest t) {e : Parsed Sexp s.length}
    (h : expression? s = some e) {es : List Sexp} {part rest : List Char}
    (hpart : LongestPart e.rest es part rest) :
    ∃ part', LongestPart s (e.value :: es) part' rest := by
  have ih : ∀ t, t.length < (skipBlanks s).length → ReadsLongest t :=
    fun t ht => ih t (Nat.lt_of_lt_of_le ht (length_skipBlanks_le s))
  rw [expression?, Option.map_eq_some_iff] at h
  obtain ⟨e, he, rfl⟩ := h
  rcases Option.or_eq_some_iff.1 he with hlist | ⟨-, hatom⟩
  · obtain ⟨items, body, htext, hbody, hvalue⟩ := list?_eq_some ih hlist
    have hlist := hpart.of_skipBlanks.list hbody
    rw [← htext, ← hvalue] at hlist
    exact ⟨_, hlist.of_skipBlanks⟩
  · obtain ⟨chars, htext, hword, hdelimited, hvalue⟩ := atom?_eq_some hatom
    have hatom := hpart.of_skipBlanks.atom hword hdelimited
    rw [← htext, ← hvalue] at hatom
    exact ⟨_, hatom.of_skipBlanks⟩

theorem stuck_of_expression? {s : List Char} (ih : ∀ t, t.length < s.length → ReadsLongest t)
    (h : expression? s = none) : Stuck (skipBlanks s) := by
  have ih : ∀ t, t.length < (skipBlanks s).length → ReadsLongest t :=
    fun t ht => ih t (Nat.lt_of_lt_of_le ht (length_skipBlanks_le s))
  rw [expression?, Option.map_eq_none_iff, Option.or_eq_none_iff] at h
  have hlist := list?_eq_none ih h.1
  have hdelimited := atom?_eq_none h.2
  have hblank := List.head?_dropWhile_not isBlank s
  rw [← skipBlanks] at hblank
  cases hs : skipBlanks s with
  | nil => exact stuck_nil
  | cons c t =>
    rw [hs] at hlist hdelimited hblank
    refine stuck_cons (by simpa using hblank) (hdelimited c rfl) ?_
    rintro rfl
    exact hlist t rfl

/-- **The descent reads the longest part of the text.** -/
theorem readsLongest (s : List Char) : ReadsLongest s := by
  have ih : ∀ t, t.length < s.length → ReadsLongest t := fun t _ => readsLongest t
  rw [ReadsLongest, expressions]
  cases h : expression? s with
  | none => exact ⟨_, (stuck_of_expression? ih h).longestPart.of_skipBlanks⟩
  | some e =>
    obtain ⟨part, hpart⟩ := ih e.rest e.length_lt
    exact longestPart_of_expression? ih h hpart
  termination_by s.length

theorem skipBlanks_skipBlanks (s : List Char) : skipBlanks (skipBlanks s) = skipBlanks s :=
  List.dropWhile_idempotent isBlank s

/-- No blanks are left behind an expression, so none are left behind the last one. -/
theorem skipBlanks_rest_expressions {s : List Char} (hs : skipBlanks s = s) :
    skipBlanks (expressions s).rest = (expressions s).rest := by
  rw [expressions]
  cases h : expression? s with
  | none => exact hs
  | some e =>
    have he : skipBlanks e.rest = e.rest := by
      rw [expression?, Option.map_eq_some_iff] at h
      obtain ⟨e, -, rfl⟩ := h
      exact skipBlanks_skipBlanks e.rest
    exact skipBlanks_rest_expressions he
  termination_by s.length
  decreasing_by exact e.length_lt

/-- **The reader does in one pass what the descent does.** -/
theorem readAll_eq_descend (s : List Char) : readAll s = descend s := by
  obtain ⟨part, hpart⟩ := readsLongest (skipBlanks s)
  rw [skipBlanks_rest_expressions (skipBlanks_skipBlanks s)] at hpart
  have hlongest := hpart.of_skipBlanks
  have hlength := congrArg byteLength hlongest.eq_append
  rw [byteLength_append] at hlength
  rw [hlongest.readAll_eq, descend, hlength, Nat.add_sub_cancel]

/-! ### What the reader accepts, and where it stops -/

/-- **The reader reads the balanced texts, and stops behind the longest prefix that is one.**  The
expressions that are read have the tokens of the text, and a text has such expressions exactly if
it splits into tokens with balanced parentheses.  So the blanks do not matter, and the expressions
can be written with single blanks between them.  A text that is not read fails at the end of its
longest prefix that is, and all of this is what reading by recursive descent does. -/
theorem readAll_reads_balanced (s : List Char) :
    (∀ es, readAll s = .ok es ↔ Splits (allToTokens es) s) ∧
    ((∃ es, readAll s = .ok es) ↔ ∃ ts, Splits ts s ∧ Balanced 0 ts) ∧
    (∀ ts s', Splits ts s → Splits ts s' → ∀ es, readAll s = .ok es ↔ readAll s' = .ok es) ∧
    (∀ es, readAll s = .ok es → readAll (" ".intercalate (es.map render)).toList = .ok es) ∧
    (∀ offset, readAll s = .error offset →
      ∃ part, part <+: s ∧ byteLength part = offset ∧ (∃ es, readAll part = .ok es) ∧
        ∀ part', part' <+: s → (∃ es, readAll part' = .ok es) → part' <+: part) ∧
    readAll s = descend s := by
  refine ⟨fun es => readAll_eq_ok_iff_splits, exists_readAll_iff_balanced, fun ts s' h h' =>
    h.readAll_eq_ok_iff h', fun es h => ?_, fun offset => exists_prefix_of_readAll_eq_error,
    readAll_eq_descend s⟩
  exact readAll_intercalate_render (wellFormed_of_readAll h)

/-- A list that is never closed, behind nine bytes that can be read. -/
def openText : List Char := "p (é b)\t(c (d)".toList

/-- A word and a list, with some blanks around them. -/
def looseText : List Char := " p(é\nb)\r".toList

/-- The expressions of `looseText`. -/
def looseExpressions : List Sexp := [.atom "p", .list [.atom "é", .atom "b"]]

theorem readAll_reads_balanced_open :
    (readAll openText = .error 9 ∧
      ∃ part, part <+: openText ∧ byteLength part = 9 ∧ (∃ es, readAll part = .ok es) ∧
        ∀ part', part' <+: openText → (∃ es, readAll part' = .ok es) → part' <+: part) ∧
    readAll looseText = .ok looseExpressions ∧
      readAll (" ".intercalate (looseExpressions.map render)).toList = .ok looseExpressions := by
  have hopen : readAll openText = .error 9 := rfl
  have hloose : readAll looseText = .ok looseExpressions := rfl
  exact ⟨⟨hopen, (readAll_reads_balanced openText).2.2.2.2.1 9 hopen⟩, hloose,
    (readAll_reads_balanced looseText).2.2.2.1 looseExpressions hloose⟩

end LogicalForms.Sexp
