import LogicalForms.Proofs.Sexp.RoundTrip
import LogicalForms.Proofs.SymbolTable.Lines
import LogicalForms.Proofs.Ty.Tag

/-!
# Tables below each other

All that is left of a symbol table without its comments is read as one text, so a parenthesis could
be opened in one line and closed in another one.  It does not help: a table that is read consists
of words (`SymbolTable.read_eq_ok_iff`), and a blank between two parts of a text always stands
between two words, too (`Sexp.Spells.split_atoms`).  So the parts of a table are read one by one
(`SymbolTable.read_append_eq_ok_iff`).

A constant by itself is a table (`SymbolTable.read_render`): its text is a word that was read, so
there is no `//` in it.
-/

namespace LogicalForms

namespace Sexp

open Text

/-! ### Words one after the other -/

theorem Spells.append {es es' : List Sexp} {s s' : List Char} (h : Spells es s)
    (h' : Spells es' s') (hs' : Delimited s') : Spells (es ++ es') (s ++ s') := by
  induction h with
  | nil => exact h'
  | blank hc _ ih => exact .blank hc ih
  | atom hword hs _ ih =>
    rw [List.append_assoc]
    exact .atom hword (hs.append hs') ih
  | list hbody _ _ ih => simpa using Spells.list hbody ih

theorem IsWord.exists_eq_append {chars text s s' : List Char} {c : Char} (hword : IsWord chars)
    (hc : isBlank c = true) (h : s ++ c :: s' = chars ++ text) :
    ∃ t, s = chars ++ t ∧ t ++ c :: s' = text := by
  rcases List.append_eq_append_iff.1 h with ⟨t, ht, ht'⟩ | ⟨t, ht, ht'⟩
  · cases t with
    | nil => exact ⟨[], by simpa using ht.symm, by simpa using ht'⟩
    | cons d t =>
      obtain ⟨rfl, -⟩ := List.cons.inj ht'
      have hatom : isAtomChar c = true := hword.2 c (by simp [ht])
      rw [isBlank_of_isAtomChar hatom] at hc
      cases hc
  · exact ⟨t, ht, ht'.symm⟩

/-- A blank between two parts of a text that is words stands between two words. -/
theorem Spells.split_atoms {ws : List String} {s s' : List Char} {c : Char}
    (hc : isBlank c = true) (h : Spells (ws.map .atom) (s ++ c :: s')) :
    ∃ us vs, ws = us ++ vs ∧ Spells (us.map .atom) s ∧ Spells (vs.map .atom) s' := by
  generalize hes : ws.map Sexp.atom = es at h
  generalize htext : s ++ c :: s' = text at h
  induction h generalizing ws s with
  | nil => simp at htext
  | @blank d es text hd h ih =>
    cases s with
    | nil =>
      obtain ⟨rfl, rfl⟩ := List.cons.inj htext
      exact ⟨[], ws, rfl, .nil, hes ▸ h⟩
    | cons d' s =>
      obtain ⟨rfl, htail⟩ := List.cons.inj htext
      obtain ⟨us, vs, hws, hus, hvs⟩ := ih hes htail
      exact ⟨us, vs, hws, .blank hd hus, hvs⟩
  | @atom chars text es hword hdelimited h ih =>
    cases ws with
    | nil => simp at hes
    | cons w ws =>
      obtain ⟨hw, hes⟩ := List.cons.inj hes
      obtain ⟨s₁, rfl, htail⟩ := hword.exists_eq_append hc htext
      obtain ⟨us, vs, hws, hus, hvs⟩ := ih hes htail
      rw [← htail] at hdelimited
      refine ⟨w :: us, vs, by rw [hws]; rfl, ?_, hvs⟩
      rw [List.map_cons, hw]
      exact .atom hword hdelimited.of_append hus
  | list _ _ =>
    cases ws with
    | nil => simp at hes
    | cons w ws => simp at hes

theorem spells_append_blank_iff {ws : List String} {s s' : List Char} {c : Char}
    (hc : isBlank c = true) : Spells (ws.map .atom) (s ++ c :: s') ↔
      ∃ us vs, ws = us ++ vs ∧ Spells (us.map .atom) s ∧ Spells (vs.map .atom) s' := by
  refine ⟨Spells.split_atoms hc, ?_⟩
  rintro ⟨us, vs, rfl, hus, hvs⟩
  have hdelimited : Delimited (c :: s') := by
    refine delimited_cons s' (eq_false_of_ne_true fun hatom => ?_)
    rw [isBlank_of_isAtomChar hatom] at hc
    cases hc
  rw [List.map_append]
  exact hus.append (.blank hc hvs) hdelimited

end Sexp

namespace SymbolTable

open Text Sexp

/-! ### What a table lists -/

/-- The text is these constants, with blanks around them. -/
def Lists (cs : List Constant) (s : List Char) : Prop :=
  Spells ((cs.map Constant.render).map .atom) s ∧ ∀ c ∈ cs, Constant.ofAtom c.render = .ok c

theorem constant_eq_ok_iff {e : Sexp} {c : Constant} :
    constant e = .ok c ↔ e = .atom c.render ∧ Constant.ofAtom c.render = .ok c := by
  cases e with
  | list es => simp [constant]
  | atom text =>
    simp only [constant, Sexp.atom.injEq]
    constructor
    · intro h
      rw [Constant.render_of_ofAtom h]
      exact ⟨rfl, h⟩
    · rintro ⟨rfl, h⟩
      exact h

theorem mapM_constant_eq_ok_iff {es : List Sexp} {cs : List Constant} :
    es.mapM constant = .ok cs ↔ es = (cs.map Constant.render).map .atom ∧
      ∀ c ∈ cs, Constant.ofAtom c.render = .ok c := by
  induction es generalizing cs with
  | nil => cases cs <;> simp [pure, Except.pure]
  | cons e es ih =>
    have hbind : (e :: es).mapM constant = .ok cs ↔
        ∃ c cs', constant e = .ok c ∧ es.mapM constant = .ok cs' ∧ c :: cs' = cs := by
      rw [List.mapM_cons]
      cases constant e with
      | error err => simp [bind, Except.bind]
      | ok c => cases es.mapM constant <;> simp [bind, Except.bind, pure, Except.pure]
    rw [hbind]
    simp only [constant_eq_ok_iff, ih]
    constructor
    · rintro ⟨c, cs', ⟨rfl, hc⟩, ⟨rfl, hcs'⟩, rfl⟩
      exact ⟨rfl, List.forall_mem_cons.2 ⟨hc, hcs'⟩⟩
    · rintro ⟨hes, hcs⟩
      cases cs with
      | nil => simp at hes
      | cons c cs =>
        obtain ⟨rfl, rfl⟩ := List.cons.inj hes
        obtain ⟨hc, hcs⟩ := List.forall_mem_cons.1 hcs
        exact ⟨c, cs, ⟨rfl, hc⟩, ⟨rfl, hcs⟩, rfl⟩

theorem read_eq_ok_iff {text : String} {cs : List Constant} :
    read text = .ok cs ↔ Lists cs (strip text).toList := by
  rw [read, Sexp.read]
  cases h : readAll (strip text).toList with
  | error offset =>
    simp only [bind, Except.bind, reduceCtorEq, false_iff]
    rintro ⟨hspells, -⟩
    rw [readAll_of_spells hspells] at h
    cases h
  | ok es =>
    change es.mapM constant = .ok cs ↔ _
    rw [mapM_constant_eq_ok_iff, Lists, ← readAll_eq_ok_iff, h, Except.ok.injEq]

theorem lists_nil : Lists [] [] := ⟨.nil, by simp⟩

theorem Lists.eq_nil {cs : List Constant} (h : Lists cs []) : cs = [] := by
  have hread := readAll_of_spells h.1
  rw [readAll_of_spells .nil] at hread
  simpa using hread

theorem lists_append_blank_iff {cs : List Constant} {s s' : List Char} :
    Lists cs (s ++ ' ' :: s') ↔ ∃ c₁ c₂, cs = c₁ ++ c₂ ∧ Lists c₁ s ∧ Lists c₂ s' := by
  rw [Lists, spells_append_blank_iff (by decide)]
  constructor
  · rintro ⟨⟨us, vs, hws, hus, hvs⟩, hcs⟩
    obtain ⟨c₁, c₂, rfl, rfl, rfl⟩ := List.map_eq_append_iff.1 hws
    rw [List.forall_mem_append] at hcs
    exact ⟨c₁, c₂, rfl, ⟨hus, hcs.1⟩, ⟨hvs, hcs.2⟩⟩
  · rintro ⟨c₁, c₂, rfl, h₁, h₂⟩
    exact ⟨⟨_, _, List.map_append, h₁.1, h₂.1⟩, List.forall_mem_append.2 ⟨h₁.2, h₂.2⟩⟩

theorem lists_intercalate_append_iff {cs : List Constant} {es es' : List (List Char)} :
    Lists cs ([' '].intercalate (es ++ es')) ↔ ∃ c₁ c₂, cs = c₁ ++ c₂ ∧
      Lists c₁ ([' '].intercalate es) ∧ Lists c₂ ([' '].intercalate es') := by
  by_cases hes : es = []
  · subst hes
    constructor
    · exact fun h => ⟨[], cs, rfl, lists_nil, h⟩
    · rintro ⟨c₁, c₂, rfl, h₁, h₂⟩
      rwa [h₁.eq_nil, List.nil_append]
  · by_cases hes' : es' = []
    · subst hes'
      rw [List.append_nil]
      constructor
      · exact fun h => ⟨cs, [], cs.append_nil.symm, h, lists_nil⟩
      · rintro ⟨c₁, c₂, rfl, h₁, h₂⟩
        rwa [h₂.eq_nil, List.append_nil]
    · rw [intercalate_append hes hes', lists_append_blank_iff]

/-! ### Reading part by part -/

/-- Two tables below each other are read when both are, and give the constants of both. -/
theorem read_append_eq_ok_iff {a b : String} {cs : List Constant} :
    read (a ++ "\n" ++ b) = .ok cs ↔
      ∃ c₁ c₂, read a = .ok c₁ ∧ read b = .ok c₂ ∧ cs = c₁ ++ c₂ := by
  simp only [read_eq_ok_iff, toList_strip]
  rw [lines_append, entries_append, lists_intercalate_append_iff]
  refine exists_congr fun c₁ => exists_congr fun c₂ => ?_
  rw [and_comm, and_assoc]

/-- Comments do not matter, not even for the error. -/
theorem read_of_commented {a b : String} (h : Commented (lines a) (lines b)) :
    read b = read a := by
  rw [read, read, strip_of_commented h]

/-- What can be left of a line. -/
theorem strip_eq_self {s : List Char} (hne : s ≠ []) (hspace : ∀ c ∈ s, isSpace c = false)
    (hcomment : beforeComment s = s) : strip (String.ofList s) = String.ofList s := by
  have hline : '\n' ∉ s := fun h => absurd (hspace _ h) (by decide)
  rw [← String.toList_inj, toList_strip, lines, String.toList_ofList, splitAll_eq_singleton hline]
  have hstrip : stripLine s = s := by
    rw [stripLine_eq, trimStart_eq_self hspace, hcomment, trimEnd_eq_self hspace]
  simp [entries, hstrip, hne]

theorem infix_of_spells {ws : List String} {s : List Char} (h : Spells (ws.map .atom) s) :
    ∀ w ∈ ws, w.toList <:+: s := by
  generalize hes : ws.map Sexp.atom = es at h
  induction h generalizing ws with
  | nil => simp_all
  | blank _ _ ih => exact fun w hw => (ih hes w hw).trans (List.suffix_cons _ _).isInfix
  | @atom chars s es _ _ _ ih =>
    cases ws with
    | nil => simp at hes
    | cons w ws =>
      obtain ⟨hw, hes⟩ := List.cons.inj hes
      rw [Sexp.atom.injEq] at hw
      intro v hv
      rcases List.mem_cons.1 hv with rfl | hv
      · rw [hw, String.toList_ofList]
        exact List.infix_append_left
      · exact (ih hes v hv).trans List.infix_append_right
  | list _ _ => cases ws <;> simp at hes

theorem isWord_of_read {text : String} {cs : List Constant} (h : read text = .ok cs) :
    ∀ c ∈ cs, IsWord c.render.toList ∧ beforeComment c.render.toList = c.render.toList := by
  intro c hc
  obtain ⟨hspells, -⟩ := read_eq_ok_iff.1 h
  have hmem : c.render ∈ cs.map Constant.render := List.mem_map_of_mem hc
  have hword : IsWord c.render.toList :=
    allWellFormed_iff.1 hspells.allWellFormed (.atom c.render) (List.mem_map_of_mem hmem)
  exact ⟨hword,
    beforeComment_eq_self_of_infix (beforeComment_strip text) (infix_of_spells hspells _ hmem)⟩

theorem read_render_of_isWord {c : Constant} (hword : IsWord c.render.toList)
    (hcomment : beforeComment c.render.toList = c.render.toList)
    (hc : Constant.ofAtom c.render = .ok c) : read c.render = .ok [c] := by
  have hspace : ∀ d ∈ c.render.toList, isSpace d = false :=
    fun d hd => (isAtomChar_iff.1 (hword.2 d hd)).1
  have hstrip := strip_eq_self hword.1 hspace hcomment
  rw [String.ofList_toList] at hstrip
  rw [read_eq_ok_iff, hstrip]
  refine ⟨?_, by simpa using hc⟩
  have hself := Spells.atom hword delimited_nil .nil
  rwa [List.append_nil, String.ofList_toList] at hself

theorem read_render {text : String} {cs : List Constant} (h : read text = .ok cs) :
    ∀ c ∈ cs, read c.render = .ok [c] := by
  intro c hc
  obtain ⟨hword, hcomment⟩ := isWord_of_read h c hc
  exact read_render_of_isWord hword hcomment ((read_eq_ok_iff.1 h).2 c hc)

/-- Constants that are tables by themselves are a table when each has a line. -/
theorem read_intercalate {cs : List Constant} (h : ∀ c ∈ cs, read c.render = .ok [c]) :
    read ("\n".intercalate (cs.map Constant.render)) = .ok cs := by
  induction cs with
  | nil => rfl
  | cons c cs ih =>
    obtain ⟨hc, hcs⟩ := List.forall_mem_cons.1 h
    by_cases hnil : cs = []
    · subst hnil
      simpa using hc
    · have hmap : cs.map Constant.render ≠ [] := by simpa using hnil
      rw [List.map_cons, String.intercalate_cons_of_ne_nil hmap, read_append_eq_ok_iff]
      exact ⟨[c], cs, hc, ih hcs, rfl⟩

/-- **Symbol tables are read line by line.**  Two tables below each other are read when both are,
and give the constants of both.  Comments do not matter, not even for the error.  And the constants
of a table, written one to a line, are read as themselves. -/
theorem read_by_lines :
    (∀ (a b : String) (cs : List Constant), read (a ++ "\n" ++ b) = .ok cs ↔
      ∃ c₁ c₂, read a = .ok c₁ ∧ read b = .ok c₂ ∧ cs = c₁ ++ c₂) ∧
    (∀ a b : String, Commented (lines a) (lines b) → read b = read a) ∧
    (∀ (text : String) (cs : List Constant), read text = .ok cs →
      read ("\n".intercalate (cs.map Constant.render)) = .ok cs ∧
      read ("\n".intercalate (cs.map Constant.render) ++ "\n") = .ok cs) := by
  refine ⟨fun a b cs => read_append_eq_ok_iff, fun a b => read_of_commented, fun text cs h => ?_⟩
  have hlines := read_intercalate (read_render h)
  refine ⟨hlines, ?_⟩
  have hempty : read "" = .ok [] := rfl
  have hboth := read_append_eq_ok_iff.2 ⟨cs, [], hlines, hempty, cs.append_nil.symm⟩
  rwa [String.append_empty] at hboth

/-- A table whose first line ends with a carriage return. -/
def townsText : String := "boston:e\r\nnext_to:<e,<e,t>> // a relation"

/-- The table `townsText` with more comments. -/
def commentedTownsText : String :=
  "// towns\nboston:e // in the east\r\n\t\r\nnext_to:<e,<e,t>> // a relation // of towns\n"

/-- The constants of `townsText`. -/
def towns : List Constant :=
  [⟨"boston", .atom "e"⟩, ⟨"next_to", .arrow (.atom "e") (.arrow (.atom "e") (.atom "t"))⟩]

theorem commented_townsText : Commented (lines townsText) (lines commentedTownsText) := by
  have hlines : lines townsText =
      ["boston:e".toList ++ ['\r'], "next_to:<e,<e,t>> // a relation".toList ++ []] := by
    decide +kernel
  have hcommented : lines commentedTownsText =
      [[] ++ '/' :: '/' :: " towns".toList,
       "boston:e".toList ++ ' ' :: '/' :: '/' :: " in the east\r".toList,
       "\t\r".toList,
       "next_to:<e,<e,t>> // a relation".toList ++ ' ' :: '/' :: '/' :: " of towns".toList,
       []] := by
    decide +kernel
  have hreturn : ∀ c ∈ ['\r'], isSpace c = true := List.all_eq_true.1 rfl
  have hblank : ∀ c ∈ "\t\r".toList, isSpace c = true := List.all_eq_true.1 rfl
  rw [hlines, hcommented]
  exact .insert (.comment (by simp) _) (.comment _ hreturn _ (.insert (.blank hblank)
    (.comment _ (by simp) _ (.insert (.blank (by simp)) .nil))))

theorem read_townsText : read townsText = .ok towns := by decide +kernel

theorem read_by_lines_towns :
    read townsText = .ok towns ∧ read commentedTownsText = .ok towns ∧
      read ("\n".intercalate (towns.map Constant.render)) = .ok towns ∧
      read ("\n".intercalate (towns.map Constant.render) ++ "\n") = .ok towns :=
  ⟨read_townsText, (read_by_lines.2.1 _ _ commented_townsText).trans read_townsText,
    read_by_lines.2.2 _ _ read_townsText⟩

end SymbolTable

end LogicalForms
