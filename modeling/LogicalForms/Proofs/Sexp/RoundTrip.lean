import LogicalForms.Proofs.Sexp.Spelling

/-!
# Nested expressions read back as they were written

An expression is well formed (`Sexp.WellFormed`) when its atoms are words of atom characters.

* The text of a well-formed expression is read as that expression (`Sexp.readAll_render`), since it
  spells the expression (`Sexp.spells_render`).
* Only well-formed expressions are spelled, so the reader makes no others
  (`Sexp.wellFormed_of_readAll`).
-/

namespace LogicalForms.Sexp

open Text

/-! ### Well-formed expressions -/

mutual

/-- Every atom of the expression is a word. -/
def WellFormed : Sexp → Prop
  | .atom text => IsWord text.toList
  | .list items => AllWellFormed items

/-- Every atom of the expressions is a word. -/
def AllWellFormed : List Sexp → Prop
  | [] => True
  | e :: es => e.WellFormed ∧ AllWellFormed es

end

theorem allWellFormed_iff {es : List Sexp} : AllWellFormed es ↔ ∀ e ∈ es, e.WellFormed := by
  induction es with
  | nil => simp [AllWellFormed]
  | cons e es ih => simp [AllWellFormed, ih]

/-! ### Texts of expressions -/

theorem delimited_renderTail (es : List Sexp) : Delimited (renderTail es).toList := by
  cases es with
  | nil => exact delimited_nil
  | cons e es =>
    simp only [renderTail, String.toList_append]
    exact delimited_cons _ (by decide)

mutual

theorem spells_render : ∀ (e : Sexp) {es : List Sexp} {s : List Char}, e.WellFormed →
    Delimited s → Spells es s → Spells (e :: es) (e.render.toList ++ s)
  | .atom text, es, s, he, hs, h => by
    have hatom := Spells.atom he hs h
    rwa [String.ofList_toList] at hatom
  | .list [], es, s, _, _, h => by
    simpa [render] using Spells.list .nil h
  | .list (e :: items), es, s, he, _, h => by
    have hbody : Spells (e :: items) (e.render.toList ++ (renderTail items).toList) :=
      spells_render e he.1 (delimited_renderTail items) (spells_renderTail items he.2)
    simpa [render] using Spells.list hbody h

theorem spells_renderTail : ∀ es : List Sexp, AllWellFormed es →
    Spells es (renderTail es).toList
  | [], _ => by
    simpa [renderTail] using Spells.nil
  | e :: es, h => by
    have hes : Spells (e :: es) (e.render.toList ++ (renderTail es).toList) :=
      spells_render e h.1 (delimited_renderTail es) (spells_renderTail es h.2)
    have hblank : isBlank ' ' = true := by decide
    simpa [renderTail] using Spells.blank hblank hes

end

/-- **The text of a well-formed expression is read as that expression.** -/
theorem readAll_render {e : Sexp} (h : e.WellFormed) : readAll e.render.toList = .ok [e] := by
  have hspells := spells_render e h delimited_nil .nil
  rw [List.append_nil] at hspells
  exact readAll_of_spells hspells

/-! ### Expressions the reader makes -/

theorem Spells.allWellFormed {es : List Sexp} {s : List Char} (h : Spells es s) :
    AllWellFormed es := by
  induction h with
  | nil => trivial
  | blank _ _ ih => exact ih
  | atom hword _ _ ih =>
    refine ⟨?_, ih⟩
    rwa [WellFormed, String.toList_ofList]
  | list _ _ ihbody ih => exact ⟨ihbody, ih⟩

/-- **The reader makes well-formed expressions only.** -/
theorem wellFormed_of_readAll {s : List Char} {es : List Sexp} (h : readAll s = .ok es) :
    ∀ e ∈ es, e.WellFormed :=
  allWellFormed_iff.1 (readAll_eq_ok_iff.1 h).allWellFormed

end LogicalForms.Sexp
