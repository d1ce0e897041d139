import LogicalForms.Proofs.Sexp.RoundTrip

/-!
# Balanced sequences of tokens

A text splits into parentheses and maximal words with blanks around them (`Sexp.Splits`), in one way
at most (`Sexp.Splits.tokens_eq`).  Expressions have tokens, too (`Sexp.allToTokens`).

* What is read from a text are the expressions with its tokens (`Sexp.readAll_eq_ok_iff_splits`), so
  the blanks do not matter (`Sexp.Splits.readAll_eq_ok_iff`).
* A text is read exactly if it splits into tokens with balanced parentheses
  (`Sexp.exists_readAll_iff_balanced`).
* Expressions that are written with single blanks between them are read back
  (`Sexp.readAll_intercalate_render`).
-/

namespace LogicalForms.Sexp

open Text

/-! ### The tokens of a text -/

/-- The text splits into these tokens.  Only blanks stand between them, and a word does not go on
behind its end. -/
inductive Splits : List Token → List Char → Prop
  | nil : Splits [] []
  | blank {c : Char} {ts : List Token} {s : List Char} (hc : isBlank c = true) (h : Splits ts s) :
      Splits ts (c :: s)
  | opening {ts : List Token} {s : List Char} (h : Splits ts s) : Splits (.opening :: ts) ('(' :: s)
  | closing {ts : List Token} {s : List Char} (h : Splits ts s) : Splits (.closing :: ts) (')' :: s)
  | atom {chars s : List Char} {ts : List Token} (hword : IsWord chars) (hs : Delimited s)
      (h : Splits ts s) : Splits (.atom chars :: ts) (chars ++ s)

theorem Splits.append {ts ts' : List Token} {s s' : List Char} (h : Splits ts s)
    (h' : Splits ts' s') (hs' : Delimited s') : Splits (ts ++ ts') (s ++ s') := by
  induction h with
  | nil => exact h'
  | blank hc _ ih => exact .blank hc ih
  | opening _ ih => exact .opening ih
  | closing _ ih => exact .closing ih
  | atom hword hs _ ih =>
    rw [List.append_assoc]
    exact .atom hword (hs.append hs') ih

/-- A text splits in one way only: into the tokens that the reader goes through. -/
theorem Splits.tokens_eq {ts : List Token} {s : List Char} (h : Splits ts s) (offset : Nat) :
    (tokens offset s).map Prod.snd = ts := by
  induction h generalizing offset with
  | nil => rfl
  | blank hc _ ih => rw [tokens_cons_blank _ _ hc, ih]
  | opening _ ih => rw [tokens_cons_opening, List.map_cons, ih]
  | closing _ ih => rw [tokens_cons_closing, List.map_cons, ih]
  | atom hword hs _ ih => rw [tokens_append_atom _ hword hs, List.map_cons, ih]

theorem Splits.stray_notMem {ts : List Token} {s : List Char} (h : Splits ts s) (c : Char) :
    .stray c ∉ ts := by
  induction h with
  | nil => simp
  | blank _ _ ih => exact ih
  | opening _ ih => simpa using ih
  | closing _ ih => simpa using ih
  | atom _ _ _ ih => simpa using ih

/-! ### The tokens of expressions -/

mutual

/-- The tokens of an expression. -/
def toTokens : Sexp → List Token
  | .atom text => [.atom text.toList]
  | .list items => .opening :: (allToTokens items ++ [.closing])

/-- The tokens of expressions, one after the other. -/
def allToTokens : List Sexp → List Token
  | [] => []
  | e :: es => e.toTokens ++ allToTokens es

end

theorem Spells.splits {es : List Sexp} {s : List Char} (h : Spells es s) :
    Splits (allToTokens es) s := by
  induction h with
  | nil => exact .nil
  | blank hc _ ih => exact .blank hc ih
  | atom hword hs _ ih => simpa [allToTokens, toTokens] using Splits.atom hword hs ih
  | list _ _ ihbody ih =>
    have hclose := ihbody.append (.closing ih) (delimited_cons _ (by decide))
    simpa [allToTokens, toTokens] using Splits.opening hclose

mutual

theorem Progress.run_toTokens : ∀ (e : Sexp) {located : List (Nat × Token)} {rest : List Token},
    located.map Prod.snd = e.toTokens ++ rest →
    ∃ located', located'.map Prod.snd = rest ∧
      ∀ p : Progress, p.run located = (p.add e).run located'
  | .atom text, located, rest, h => by
    obtain ⟨⟨offset, t⟩, located', rfl, rfl, hrest⟩ := List.map_eq_cons_iff.1 h
    refine ⟨located', hrest, fun p => ?_⟩
    simp [run, step]
  | .list items, located, rest, h => by
    rw [toTokens, List.cons_append, List.append_assoc] at h
    obtain ⟨⟨offset, t⟩, located₁, rfl, rfl, hbody⟩ := List.map_eq_cons_iff.1 h
    obtain ⟨located₂, hclose, hrun⟩ := run_allToTokens items hbody
    obtain ⟨⟨offset', t'⟩, located', rfl, rfl, hrest⟩ := List.map_eq_cons_iff.1 hclose
    refine ⟨located', hrest, fun p => ?_⟩
    simp [run, step, hrun, addAll_opened]

theorem Progress.run_allToTokens : ∀ (es : List Sexp) {located : List (Nat × Token)}
    {rest : List Token}, located.map Prod.snd = allToTokens es ++ rest →
    ∃ located', located'.map Prod.snd = rest ∧
      ∀ p : Progress, p.run located = (p.addAll es).run located'
  | [], located, rest, h => ⟨located, h, fun _ => rfl⟩
  | e :: es, located, rest, h => by
    rw [allToTokens, List.append_assoc] at h
    obtain ⟨located₁, hes, hadd⟩ := run_toTokens e h
    obtain ⟨located', hrest, hrun⟩ := run_allToTokens es hes
    exact ⟨located', hrest, fun p => by rw [hadd, hrun]; rfl⟩

end

/-- **What is read from a text are the expressions with its tokens.** -/
theorem readAll_eq_ok_iff_splits {es : List Sexp} {s : List Char} :
    readAll s = .ok es ↔ Splits (allToTokens es) s := by
  refine ⟨fun h => (readAll_eq_ok_iff.1 h).splits, fun h => ?_⟩
  have htokens := h.tokens_eq 0
  rw [← List.append_nil (allToTokens es)] at htokens
  obtain ⟨located, hnil, hrun⟩ := Progress.run_allToTokens es htokens
  rw [List.map_eq_nil_iff.1 hnil] at hrun
  rw [readAll, hrun, Progress.addAll_done]
  simp [Progress.run, Progress.finish, Progress.outermost?]

/-- Texts with the same tokens are read in the same way. -/
theorem Splits.readAll_eq_ok_iff {ts : List Token} {s s' : List Char} (h : Splits ts s)
    (h' : Splits ts s') (es : List Sexp) : readAll s = .ok es ↔ readAll s' = .ok es := by
  simp only [readAll_eq_ok_iff_splits]
  constructor
  · intro hes
    rwa [← hes.tokens_eq 0, h.tokens_eq]
  · intro hes
    rwa [← hes.tokens_eq 0, h'.tokens_eq]

/-! ### Balance -/

/-- The parentheses are balanced when `depth` lists are open before these tokens: never are more
lists closed than are open, and in the end all are closed. -/
structure Balanced (depth : Nat) (ts : List Token) : Prop where
  closing_le : ∀ us, us <+: ts → us.count .closing ≤ depth + us.count .opening
  closing_eq : ts.count .closing = depth + ts.count .opening

theorem balanced_nil_iff {depth : Nat} : Balanced depth [] ↔ depth = 0 := by
  constructor
  · exact fun h => by simpa using h.closing_eq.symm
  · rintro rfl
    exact ⟨by simp, rfl⟩

theorem balanced_cons_iff {depth : Nat} {t : Token} {ts : List Token} (depth' : Nat)
    (h : depth' + [t].count .closing = depth + [t].count .opening) :
    Balanced depth (t :: ts) ↔ Balanced depth' ts := by
  have hcount : ∀ (a : Token) (us : List Token), (t :: us).count a = [t].count a + us.count a :=
    fun a us => by rw [← List.singleton_append, List.count_append]
  constructor
  · refine fun hts => ⟨fun us hus => ?_, ?_⟩
    · have hle := hts.closing_le (t :: us) ((List.prefix_cons_inj t).2 hus)
      rw [hcount _ us, hcount _ us] at hle
      omega
    · have heq := hts.closing_eq
      rw [hcount _ ts, hcount _ ts] at heq
      omega
  · refine fun hts => ⟨fun vs hvs => ?_, ?_⟩
    · rcases List.prefix_cons_iff.1 hvs with rfl | ⟨us, rfl, hus⟩
      · exact Nat.zero_le _
      · have hle := hts.closing_le us hus
        rw [hcount _ us, hcount _ us]
        omega
    · have heq := hts.closing_eq
      rw [hcount _ ts, hcount _ ts]
      omega

theorem not_balanced_closing (ts : List Token) : ¬ Balanced 0 (.closing :: ts) := by
  intro h
  have hle := h.closing_le [.closing] (by simp)
  exact absurd hle (by decide)

theorem Progress.length_frames_add (e : Sexp) (p : Progress) :
    (p.add e).frames.length = p.frames.length := by
  obtain ⟨done, frames⟩ := p
  cases frames <;> rfl

/-- Tokens are read to their end exactly if they close the lists that are open. -/
theorem Progress.exists_run_iff_balanced {located : List (Nat × Token)}
    (hstray : ∀ c, .stray c ∉ located.map Prod.snd) (p : Progress) :
    (∃ es, p.run located = .ok es) ↔ Balanced p.frames.length (located.map Prod.snd) := by
  induction located generalizing p with
  | nil =>
    obtain ⟨done, frames⟩ := p
    rw [List.map_nil, balanced_nil_iff, List.length_eq_zero_iff]
    cases frames with
    | nil => simp [run, finish, outermost?]
    | cons f fs => simp [run, finish, outermost?, List.getLast?_cons]
  | cons lt located ih =>
    obtain ⟨offset, t⟩ := lt
    obtain ⟨done, frames⟩ := p
    simp only [List.map_cons, List.mem_cons, not_or] at hstray
    have ih := ih fun c => (hstray c).2
    cases t with
    | opening =>
      rw [List.map_cons, balanced_cons_iff (frames.length + 1) rfl]
      exact ih ⟨done, ⟨offset, []⟩ :: frames⟩
    | closing =>
      cases frames with
      | nil => simp [run, step, not_balanced_closing]
      | cons f fs =>
        rw [List.map_cons, List.length_cons, balanced_cons_iff fs.length rfl,
          ← length_frames_add (.list f.items.reverse) ⟨done, fs⟩]
        exact ih _
    | atom chars =>
      rw [List.map_cons, balanced_cons_iff frames.length rfl,
        ← length_frames_add (.atom (String.ofList chars)) ⟨done, frames⟩]
      exact ih _
    | stray c => exact absurd rfl (hstray c).1

/-- **A text is read exactly if it splits into tokens with balanced parentheses.** -/
theorem exists_readAll_iff_balanced {s : List Char} :
    (∃ es, readAll s = .ok es) ↔ ∃ ts, Splits ts s ∧ Balanced 0 ts := by
  have hrun : ∀ ts, Splits ts s → ((∃ es, readAll s = .ok es) ↔ Balanced 0 ts) := by
    intro ts hts
    have htokens := hts.tokens_eq 0
    have hstray : ∀ c, .stray c ∉ (tokens 0 s).map Prod.snd := htokens ▸ hts.stray_notMem
    have hbalanced := Progress.exists_run_iff_balanced hstray ⟨[], []⟩
    rwa [htokens] at hbalanced
  constructor
  · rintro ⟨es, hes⟩
    have hsplits := readAll_eq_ok_iff_splits.1 hes
    exact ⟨_, hsplits, (hrun _ hsplits).1 ⟨es, hes⟩⟩
  · rintro ⟨ts, hts, hbalanced⟩
    exact (hrun ts hts).2 hbalanced

/-! ### Single blanks -/

theorem intercalate_render (e : Sexp) (es : List Sexp) :
    " ".intercalate ((e :: es).map render) = e.render ++ renderTail es := by
  induction es generalizing e with
  | nil => simp [renderTail]
  | cons e' es ih =>
    rw [List.map_cons, String.intercalate_cons_of_ne_nil (by simp), ih, renderTail]
    simp [String.append_assoc]

/-- **Expressions that are written with single blanks between them are read back.** -/
theorem readAll_intercalate_render {es : List Sexp} (h : ∀ e ∈ es, e.WellFormed) :
    readAll (" ".intercalate (es.map render)).toList = .ok es := by
  refine readAll_of_spells ?_
  cases es with
  | nil => exact .nil
  | cons e es =>
    rw [intercalate_render, String.toList_append]
    obtain ⟨he, hes⟩ := List.forall_mem_cons.1 h
    exact spells_render e he (delimited_renderTail es)
      (spells_renderTail es (allWellFormed_iff.2 hes))

end LogicalForms.Sexp
