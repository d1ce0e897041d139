import LogicalForms.Proofs.SymbolTable.Reading
import LogicalForms.Proofs.Term.Printed
import LogicalForms.Proofs.Ty.Grammar

/-!
# Constants by themselves

A constant is read in three ways: by itself, as a term, and in a symbol table.  All three cut a
text at its last colon, and what can stand in a type tag can always stand in an atom
(`Ty.IsTag.isAtomChar`).  They differ in the name only: the texts of terms and of tables are split
into atoms first, and the text of a constant by itself is not.

So a constant that was read by itself is read back as a term exactly if its name is a word, and
from a table exactly if its name holds no `//` either (`Constant.read_back_iff_isWord`).
-/

namespace LogicalForms

open Text Sexp

/-! ### Texts of one word -/

theorem Text.isSpace_head?_trim (s : List Char) : ∀ c ∈ (trim s).head?, isSpace c = false := by
  intro c hc
  obtain ⟨rest, hrest⟩ := List.head?_eq_some_iff.1 (Option.mem_def.1 hc)
  obtain ⟨space, -, heq⟩ := exists_trimEnd_append (trimStart s)
  have hstart : s.dropWhile isSpace = c :: (rest ++ space) := by
    rw [← List.cons_append, ← hrest]
    exact heq
  have hhead := List.head?_dropWhile_not isSpace s
  rw [hstart] at hhead
  exact hhead

theorem Text.trim_eq_self {s : List Char} (hhead : ∀ c ∈ s.head?, isSpace c = false)
    (hlast : ∀ c ∈ s.getLast?, isSpace c = false) : trim s = s := by
  have hdrop : ∀ t : List Char, (∀ c ∈ t.head?, isSpace c = false) → t.dropWhile isSpace = t := by
    intro t ht
    cases t with
    | nil => rfl
    | cons c t => rw [List.dropWhile_cons_of_neg (by simp [ht c rfl])]
  rw [trim, trimStart, hdrop s hhead, trimEnd, hdrop s.reverse (by simpa using hlast),
    List.reverse_reverse]

namespace Sexp

theorem Spells.isBlank_of_nil {s : List Char} (h : Spells [] s) : ∀ c ∈ s, isBlank c = true := by
  generalize hes : ([] : List Sexp) = es at h
  induction h with
  | nil => simp
  | blank hc _ ih => exact List.forall_mem_cons.2 ⟨hc, ih hes⟩
  | atom => cases hes
  | list => cases hes

theorem Spells.eq_nil_of_getLast? {text rest : List Char} (h : Spells [] rest)
    (hlast : ∀ c ∈ (text ++ rest).getLast?, isAtomChar c = true) : rest = [] := by
  rcases rest.eq_nil_or_concat with rfl | ⟨init, c, rfl⟩
  · rfl
  · have hatom : isAtomChar c = true := hlast c (by simp)
    have hblank : isBlank c = true := h.isBlank_of_nil c (by simp)
    rw [isBlank_of_isAtomChar hatom] at hblank
    cases hblank

/-- A text of one expression that does not start with a blank, and ends within an atom, is a
word. -/
theorem isWord_of_spells_singleton {e : Sexp} {s : List Char} (h : Spells [e] s)
    (hhead : ∀ c ∈ s.head?, isBlank c = false) (hlast : ∀ c ∈ s.getLast?, isAtomChar c = true) :
    IsWord s := by
  cases h with
  | blank hc _ =>
    rw [hhead _ rfl] at hc
    cases hc
  | atom hword _ hrest => rwa [hrest.eq_nil_of_getLast? hlast, List.append_nil]
  | @list _ _ body rest _ hrest =>
    have htext : '(' :: (body ++ ')' :: rest) = ('(' :: body ++ [')']) ++ rest := by simp
    rw [htext] at hlast
    rw [hrest.eq_nil_of_getLast? hlast, List.append_nil] at hlast
    exact absurd (hlast ')' List.getLast?_concat) (by decide)

end Sexp

/-! ### Constants that were read by themselves -/

namespace Constant

/-- The text of a constant that was read is its name, a colon, and a type tag.  It starts with no
white space, and is read in the same way. -/
structure Standalone (c : Constant) : Prop where
  ofAtom_render : ofAtom c.render = .ok c
  isTag : Ty.IsTag c.ty.tag.toList
  name_ne_nil : c.name.toList ≠ []
  isSpace_head? : ∀ ch ∈ c.render.toList.head?, isSpace ch = false

theorem toList_render (c : Constant) :
    c.render.toList = c.name.toList ++ ':' :: c.ty.tag.toList := by
  simp [render]

theorem standalone_of_read {s : String} {c : Constant} (h : read s = .ok c) : c.Standalone := by
  have hrender : c.render = String.ofList (trim s.toList) := render_of_ofAtom h
  obtain ⟨ch, name, tag, -, -, htag, hname⟩ := ofAtom_eq_ok_iff.1 h
  constructor
  case ofAtom_render =>
    rw [hrender]
    exact h
  case isTag => exact (Ty.ofTag?_eq_some_iff.1 htag).1.isTag
  case name_ne_nil => simp [hname]
  case isSpace_head? =>
    rw [hrender, String.toList_ofList]
    exact isSpace_head?_trim s.toList

variable {c : Constant}

theorem Standalone.isWord_render_iff (h : c.Standalone) :
    IsWord c.render.toList ↔ IsWord c.name.toList := by
  rw [toList_render]
  constructor
  · exact fun hword => ⟨h.name_ne_nil, fun ch hch => hword.2 ch (List.mem_append_left _ hch)⟩
  · refine fun hword => ⟨by simp, fun ch hch => ?_⟩
    rcases List.mem_append.1 hch with hch | hch
    · exact hword.2 ch hch
    · rcases List.mem_cons.1 hch with rfl | hch
      · decide
      · exact h.isTag.isAtomChar ch hch

theorem Standalone.legible (h : c.Standalone) (hword : IsWord c.name.toList) : c.Legible :=
  ⟨h.ofAtom_render, (h.isWord_render_iff.2 hword).2⟩

theorem Standalone.isAtomChar_getLast? (h : c.Standalone) :
    ∀ ch ∈ c.render.toList.getLast?, isAtomChar ch = true := by
  intro ch hch
  have hsplit : c.render.toList = (c.name.toList ++ [':']) ++ c.ty.tag.toList := by
    simp [toList_render]
  rw [hsplit, List.getLast?_append_of_ne_nil _ h.isTag.ne_nil] at hch
  exact h.isTag.isAtomChar ch (List.mem_of_getLast? hch)

theorem Standalone.read_render (h : c.Standalone) : read c.render = .ok c := by
  have hlast : ∀ ch ∈ c.render.toList.getLast?, isSpace ch = false :=
    fun ch hch => (isAtomChar_iff.1 (h.isAtomChar_getLast? ch hch)).1
  rw [read, trim_eq_self h.isSpace_head? hlast, String.ofList_toList, h.ofAtom_render]

/-- The text of the constant is one expression only if its name is a word. -/
theorem Standalone.isWord_of_spells (h : c.Standalone) {e : Sexp}
    (hspells : Spells [e] c.render.toList) : IsWord c.name.toList := by
  refine h.isWord_render_iff.1
    (isWord_of_spells_singleton hspells (fun ch hch => ?_) h.isAtomChar_getLast?)
  refine eq_false_of_ne_true fun hblank => ?_
  have hspace := h.isSpace_head? ch hch
  rw [isSpace_of_isBlank hblank] at hspace
  cases hspace

open SymbolTable in
theorem Standalone.beforeComment_render_iff (h : c.Standalone) :
    beforeComment c.render.toList = c.render.toList ↔ ¬ ['/', '/'] <:+: c.name.toList := by
  rw [beforeComment_eq_self_iff, toList_render]
  refine not_congr ⟨fun hcomment => ?_, fun hcomment =>
    hcomment.trans (List.prefix_append _ _).isInfix⟩
  by_contra hname
  have htag : ¬ ['/', '/'] <:+: c.ty.tag.toList :=
    fun htag => h.isTag.slash_notMem (htag.subset (by simp))
  rw [← beforeComment_eq_self_iff] at hname htag
  refine beforeComment_eq_self_iff.1 ?_ hcomment
  rw [beforeComment_append _ (by decide), if_pos hname, htag]

end Constant

/-! ### Reading them back -/

namespace Term

open Constant

variable {c : Constant}

theorem readFrom_render_const (hc : c.Legible) (next : Nat) :
    readFrom next c.render = .ok (.const c, next) :=
  readFrom_eq_ok_iff.2 ⟨.atom c.render, ⟨[], next⟩, readAll_render (e := .atom c.render)
    hc.isWord_render, TermReader.run_term_const hc, rfl⟩

theorem isWord_of_readFrom (h : c.Standalone) {next n : Nat} {t : Term}
    (hread : readFrom next c.render = .ok (t, n)) : IsWord c.name.toList := by
  obtain ⟨e, σ, hall, -, -⟩ := readFrom_eq_ok_iff.1 hread
  exact h.isWord_of_spells (readAll_eq_ok_iff.1 hall)

end Term

namespace SymbolTable

open Constant

theorem read_render_iff {c : Constant} (h : c.Standalone) :
    read c.render = .ok [c] ↔ IsWord c.name.toList ∧ ¬ ['/', '/'] <:+: c.name.toList := by
  rw [← h.isWord_render_iff, ← h.beforeComment_render_iff]
  constructor
  · exact fun hread => isWord_of_read hread c (by simp)
  · exact fun hword => read_render_of_isWord hword.1 hword.2 h.ofAtom_render

end SymbolTable

namespace Constant

/-- **Which constants that were read by themselves are read back.**  All are, by themselves.  The
text of the constant is a term exactly if its name is a word, and then it is this constant; and it
is the table of this constant exactly if the name is a word without `//`. -/
theorem read_back_iff_isWord {s : String} {c : Constant} (h : read s = .ok c) :
    read c.render = .ok c ∧
    (∀ next, (Term.readFrom next c.render = .ok (.const c, next) ↔ IsWord c.name.toList) ∧
      ((∃ t n, Term.readFrom next c.render = .ok (t, n)) ↔ IsWord c.name.toList)) ∧
    (SymbolTable.read c.render = .ok [c] ↔
      IsWord c.name.toList ∧ ¬ ['/', '/'] <:+: c.name.toList) := by
  have hc : c.Standalone := standalone_of_read h
  refine ⟨hc.read_render, fun next => ⟨⟨Term.isWord_of_readFrom hc, fun hword => ?_⟩,
    ⟨?_, fun hword => ?_⟩⟩, SymbolTable.read_render_iff hc⟩
  · exact Term.readFrom_render_const (hc.legible hword) next
  · rintro ⟨t, n, hread⟩
    exact Term.isWord_of_readFrom hc hread
  · exact ⟨_, _, Term.readFrom_render_const (hc.legible hword) next⟩

theorem read_back_iff_isWord_slash :
    read "\tboston/ma:e " = .ok ⟨"boston/ma", .atom "e"⟩ ∧
      Term.readFrom 3 "boston/ma:e" = .ok (.const ⟨"boston/ma", .atom "e"⟩, 3) ∧
      SymbolTable.read "boston/ma:e" = .ok [⟨"boston/ma", .atom "e"⟩] := by
  have hread : read "\tboston/ma:e " = .ok ⟨"boston/ma", .atom "e"⟩ := by decide +kernel
  have hrender : render ⟨"boston/ma", .atom "e"⟩ = "boston/ma:e" := by decide +kernel
  have hchars : "boston/ma".toList.all isAtomChar = true := by decide +kernel
  have hword : IsWord "boston/ma".toList := ⟨by decide, List.all_eq_true.1 hchars⟩
  have hcomment : ¬ ['/', '/'] <:+: "boston/ma".toList := by decide +kernel
  obtain ⟨-, hterm, htable⟩ := read_back_iff_isWord hread
  rw [hrender] at hterm htable
  exact ⟨hread, (hterm 3).1.2 hword, htable.2 ⟨hword, hcomment⟩⟩

/-- **A constant that is read by itself only.**  Its name holds a blank, so its text is two
expressions for the reader of terms, and the first of them is no constant for the reader of
tables. -/
theorem read_back_two_words :
    read "a b:e" = .ok ⟨"a b", .atom "e"⟩ ∧ render ⟨"a b", .atom "e"⟩ = "a b:e" ∧
      ¬ ['/', '/'] <:+: "a b".toList ∧ Term.read "a b:e" = .error (.notSingle 2) ∧
      SymbolTable.read "a b:e" = .error (.badConstant "a") := by
  decide +kernel

end Constant

end LogicalForms
