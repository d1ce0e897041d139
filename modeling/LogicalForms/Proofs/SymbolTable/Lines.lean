import LogicalForms.SymbolTable
import Mathlib.Tactic.Common

/-!
# Lines and comments

A symbol table is read line by line as far as comments go: what is left of the lines
(`SymbolTable.entries`) is joined by blanks, and only then looked at.

* A comment at the end of a line, and a line that holds nothing else, leave no trace
  (`SymbolTable.strip_of_commented`).
* Nothing that is left holds a `//` (`SymbolTable.beforeComment_strip`).

A text holds no `//` when all of it stands before the first one, `beforeComment s = s`.
-/

namespace LogicalForms.SymbolTable

open Text

/-! ### The part of a line before its comment -/

theorem beforeComment_comment (text : List Char) : beforeComment ('/' :: '/' :: text) = [] := rfl

theorem beforeComment_cons {c : Char} {s : List Char} (h : c = '/' → s.head? ≠ some '/') :
    beforeComment (c :: s) = c :: beforeComment s := by
  rw [beforeComment]
  rintro rest rfl rfl
  exact h rfl rfl

theorem beforeComment_append (s : List Char) {c : Char} (hc : c ≠ '/') (rest : List Char) :
    beforeComment (s ++ c :: rest) =
      if beforeComment s = s then s ++ c :: beforeComment rest else beforeComment s := by
  have hrest : beforeComment (c :: rest) = c :: beforeComment rest :=
    beforeComment_cons fun h => absurd h hc
  fun_induction beforeComment s with
  | case1 text => simp [beforeComment_comment]
  | case2 d s hno ih =>
    have hhead : d = '/' → (s ++ c :: rest).head? ≠ some '/' := by
      rintro rfl
      cases s with
      | nil => simpa using hc
      | cons d' s =>
        rintro ⟨⟩
        exact hno s rfl rfl
    rw [List.cons_append, beforeComment_cons hhead, ih]
    split_ifs <;> simp_all
  | case3 => simpa using hrest

theorem beforeComment_eq_self_iff {s : List Char} :
    beforeComment s = s ↔ ¬ ['/', '/'] <:+: s := by
  fun_induction beforeComment s with
  | case1 text => simp [List.infix_cons_iff]
  | case2 c s hno ih =>
    have hprefix : ¬ ['/', '/'] <+: c :: s := by
      rintro ⟨text, ⟨⟩⟩
      exact hno text rfl rfl
    simp [List.infix_cons_iff, hprefix, ih]
  | case3 => simp

theorem beforeComment_prefix (s : List Char) : beforeComment s <+: s := by
  fun_induction beforeComment s with
  | case1 text => exact List.nil_prefix
  | case2 c s hno ih => exact List.prefix_cons_inj c |>.2 ih
  | case3 => exact List.nil_prefix

theorem beforeComment_beforeComment (s : List Char) :
    beforeComment (beforeComment s) = beforeComment s := by
  fun_induction beforeComment s with
  | case1 text => rfl
  | case2 c s hno ih =>
    rw [beforeComment_cons, ih]
    rintro rfl hhead
    obtain ⟨rest, hrest⟩ := beforeComment_prefix s
    cases h : beforeComment s with
    | nil => simp [h] at hhead
    | cons d t =>
      rw [h, List.cons_append] at hrest
      rw [h, List.head?_cons, Option.some.injEq] at hhead
      exact hno (t ++ rest) rfl (hhead ▸ hrest.symm)
  | case3 => rfl

theorem beforeComment_eq_self_of_infix {s t : List Char} (h : beforeComment t = t)
    (hs : s <:+: t) : beforeComment s = s :=
  beforeComment_eq_self_iff.2 fun hcomment => beforeComment_eq_self_iff.1 h (hcomment.trans hs)

/-! ### What is left of a line -/

theorem ne_slash_of_isSpace {c : Char} (h : isSpace c = true) : c ≠ '/' := by
  rintro rfl
  exact absurd h (by decide)

/-- White space at the end of a line does not count, whether or not there is a comment. -/
theorem trimEnd_beforeComment_append (s : List Char) {space : List Char}
    (hspace : ∀ c ∈ space, isSpace c = true) :
    trimEnd (beforeComment (s ++ space)) = trimEnd (beforeComment s) := by
  cases space with
  | nil => rw [List.append_nil]
  | cons c space =>
    have hclean : beforeComment space = space :=
      beforeComment_eq_self_iff.2 fun h =>
        ne_slash_of_isSpace (hspace '/' (List.mem_cons_of_mem c (h.subset (by simp)))) rfl
    rw [beforeComment_append s (ne_slash_of_isSpace (hspace c (by simp))), hclean]
    split_ifs with h
    · rw [trimEnd_append_of_spaces s hspace, h]
    · rfl

theorem stripLine_eq (line : List Char) :
    stripLine line = trimEnd (beforeComment (trimStart line)) := by
  obtain ⟨space, hspace, heq⟩ := exists_trimEnd_append (trimStart line)
  rw [stripLine, trim]
  conv_rhs => rw [heq]
  exact (trimEnd_beforeComment_append _ hspace).symm

/-- A line that holds nothing: only white space, or white space and a comment. -/
inductive IsIdle : List Char → Prop
  | blank {space : List Char} (hspace : ∀ c ∈ space, isSpace c = true) : IsIdle space
  | comment {space : List Char} (hspace : ∀ c ∈ space, isSpace c = true) (text : List Char) :
      IsIdle (space ++ '/' :: '/' :: text)

theorem stripLine_of_isIdle {line : List Char} (h : IsIdle line) : stripLine line = [] := by
  rw [stripLine_eq]
  cases h with
  | blank hspace =>
    rw [← List.append_nil line, trimStart_append_of_spaces hspace]
    rfl
  | comment hspace text =>
    rw [trimStart_append_of_spaces hspace]
    rfl

/-- **A comment at the end of a line leaves no trace.**  It stands after a blank, and white space
that the line ended with goes into the comment. -/
theorem stripLine_comment (line : List Char) {space : List Char}
    (hspace : ∀ c ∈ space, isSpace c = true) (text : List Char) :
    stripLine (line ++ ' ' :: '/' :: '/' :: text) = stripLine (line ++ space) := by
  rw [stripLine_eq, stripLine_eq, trimStart, trimStart, List.dropWhile_append,
    List.dropWhile_append]
  split_ifs with h
  · have hnil := trimStart_append_of_spaces hspace []
    rw [List.append_nil, trimStart] at hnil
    rw [hnil]
    rfl
  · rw [trimEnd_beforeComment_append _ hspace, beforeComment_append _ (by decide),
      beforeComment_comment]
    split_ifs with hclean
    · rw [trimEnd_append_of_spaces _ (List.forall_mem_singleton.2 rfl), hclean]
    · rfl

theorem beforeComment_stripLine (line : List Char) :
    beforeComment (stripLine line) = stripLine line := by
  obtain ⟨space, -, heq⟩ := exists_trimEnd_append (beforeComment (trim line))
  refine beforeComment_eq_self_of_infix (beforeComment_beforeComment (trim line)) ?_
  exact (List.prefix_append _ space |>.isInfix).trans (heq ▸ List.infix_rfl)

/-! ### What is left of a text -/

/-- The lines of a text. -/
def lines (text : String) : List (List Char) := splitAll '\n' text.toList

/-- What is left of the lines. -/
def entries (ls : List (List Char)) : List (List Char) := (ls.map stripLine).filter (· ≠ [])

theorem lines_append (a b : String) : lines (a ++ "\n" ++ b) = lines a ++ lines b := by
  simp only [lines, String.toList_append, List.append_assoc]
  exact splitAll_append '\n' a.toList b.toList

theorem toList_strip (text : String) :
    (strip text).toList = [' '].intercalate (entries (lines text)) := by
  rw [strip, String.toList_ofList]
  rfl

theorem entries_append (ls ls' : List (List Char)) :
    entries (ls ++ ls') = entries ls ++ entries ls' := by
  simp [entries]

theorem entries_cons (line : List Char) (ls : List (List Char)) :
    entries (line :: ls) = entries [line] ++ entries ls := entries_append [line] ls

/-- The second lines are the first ones with more comments: lines that hold nothing stand anywhere
between them, and comments at the end of some of them.  Each of these stands after a blank, and
white space that the line ended with, such as a carriage return, need not stand before it. -/
inductive Commented : List (List Char) → List (List Char) → Prop
  | nil : Commented [] []
  | same {ls ls' : List (List Char)} (line : List Char) (h : Commented ls ls') :
      Commented (line :: ls) (line :: ls')
  | comment {ls ls' : List (List Char)} (line : List Char) {space : List Char}
      (hspace : ∀ c ∈ space, isSpace c = true) (text : List Char) (h : Commented ls ls') :
      Commented ((line ++ space) :: ls) ((line ++ ' ' :: '/' :: '/' :: text) :: ls')
  | insert {ls ls' : List (List Char)} {line : List Char} (hline : IsIdle line)
      (h : Commented ls ls') : Commented ls (line :: ls')

/-- **Comments leave no trace.** -/
theorem entries_of_commented {ls ls' : List (List Char)} (h : Commented ls ls') :
    entries ls' = entries ls := by
  induction h with
  | nil => rfl
  | same line _ ih => rw [entries_cons, ih, ← entries_cons]
  | @comment ls ls' line space hspace text _ ih =>
    have hline : entries [line ++ ' ' :: '/' :: '/' :: text] = entries [line ++ space] := by
      rw [entries, List.map_singleton, stripLine_comment line hspace]
      rfl
    rw [entries_cons, ih, hline, ← entries_cons]
  | insert hline _ ih =>
    rw [entries_cons, ih, entries, List.map_singleton, stripLine_of_isIdle hline]
    rfl

theorem strip_of_commented {a b : String} (h : Commented (lines a) (lines b)) :
    strip b = strip a := by
  rw [← String.toList_inj, toList_strip, toList_strip, entries_of_commented h]

theorem intercalate_append {es es' : List (List Char)} (h : es ≠ []) (h' : es' ≠ []) :
    [' '].intercalate (es ++ es') = [' '].intercalate es ++ ' ' :: [' '].intercalate es' := by
  induction es with
  | nil => exact absurd rfl h
  | cons e es ih =>
    by_cases hes : es = []
    · subst hes
      simp [List.intercalate_cons_of_ne_nil h']
    · have happend : es ++ es' ≠ [] := by simp [hes]
      rw [List.cons_append, List.intercalate_cons_of_ne_nil happend,
        List.intercalate_cons_of_ne_nil hes, ih hes]
      simp

theorem beforeComment_intercalate {es : List (List Char)} (h : ∀ e ∈ es, beforeComment e = e) :
    beforeComment ([' '].intercalate es) = [' '].intercalate es := by
  induction es with
  | nil => rfl
  | cons e es ih =>
    rw [List.forall_mem_cons] at h
    by_cases hes : es = []
    · subst hes
      simpa using h.1
    · rw [List.intercalate_cons_of_ne_nil hes, List.append_assoc, List.singleton_append,
        beforeComment_append _ (by decide), if_pos h.1, ih h.2]

/-- **No `//` is left**, since entries are joined by blanks. -/
theorem beforeComment_strip (text : String) :
    beforeComment (strip text).toList = (strip text).toList := by
  rw [toList_strip]
  refine beforeComment_intercalate fun e he => ?_
  obtain ⟨line, -, rfl⟩ := List.mem_map.1 (List.mem_filter.1 he).1
  exact beforeComment_stripLine line

end LogicalForms.SymbolTable
