import LogicalForms.Proofs.Term.Grammar
import Mathlib.Tactic.Tauto

/-!
# Which texts the reader accepts

The reader accepts all documented texts, and a few more: it does not look at the type in
a reference to a variable that it knows already, so any text may stand there
(`Term.exists_read_iff`).

What a reading step accepts depends on the state only through the free names that are known, and
which names it makes known depends on the text only.  So a step is described by the known names
before it, the condition that it succeeds under and the known names after it
(`TermReader.Reads`), with a rule for each combinator.
-/

namespace LogicalForms

open Text Sexp TermReader

/-! ### Steps of the reader -/

namespace TermReader

theorem declaration?_name {decl name : String} {tag : List Char}
    (h : declaration? decl = some (name, tag)) : (referenceParts decl).1 = name := by
  obtain ⟨rest, hsplit, rfl⟩ := declaration?_eq_some_iff.1 h
  simp [referenceParts, hsplit]

/-- From these known free names on, the step succeeds exactly if `ok`; then those are known. -/
def Reads {α : Type} (x : TermReader α) (known : List String) (ok : Prop)
    (known' : List String) : Prop :=
  ∀ σ : Supply, (∀ name, name ∈ σ.free.map Prod.fst ↔ name ∈ known) →
    ((∃ a σ', x.run σ = .ok (a, σ')) ↔ ok) ∧
      ∀ a σ', x.run σ = .ok (a, σ') → ∀ name, name ∈ σ'.free.map Prod.fst ↔ name ∈ known'

namespace Reads

variable {α β : Type} {known known' known'' : List String} {ok ok' : Prop}

theorem pure (a : α) : Reads (pure a : TermReader α) known True known := by
  intro σ hσ
  refine ⟨iff_of_true ⟨a, σ, rfl⟩ trivial, fun b σ' h => ?_⟩
  obtain ⟨rfl, rfl⟩ := run_pure_eq_ok_iff.1 h
  exact hσ

theorem throw (e : ReadError) : Reads (throw e : TermReader α) known False known' := by
  intro σ _
  refine ⟨iff_of_false ?_ id, fun a σ' h => (run_throw_eq_ok_iff.1 h).elim⟩
  rintro ⟨a, σ', h⟩
  exact run_throw_eq_ok_iff.1 h

theorem liftM (x : Except ReadError α) :
    Reads (liftM x : TermReader α) known (∃ a, x = .ok a) known := by
  intro σ hσ
  simp only [run_liftM_eq_ok_iff]
  refine ⟨by simp, ?_⟩
  rintro a _ ⟨-, rfl⟩
  exact hσ

theorem newVar (ty : Ty) : Reads (newVar ty) known True known := by
  intro σ hσ
  refine ⟨iff_of_true ⟨_, _, run_newVar ty⟩ trivial, fun v σ' h => ?_⟩
  obtain ⟨-, rfl⟩ := run_newVar_eq_ok_iff.1 h
  exact hσ

theorem bind {x : TermReader α} {f : α → TermReader β} (hx : Reads x known ok known')
    (hf : ∀ a, Reads (f a) known' ok' known'') : Reads (x >>= f) known (ok ∧ ok') known'' := by
  intro σ hσ
  obtain ⟨hok, hknown⟩ := hx σ hσ
  constructor
  · constructor
    · rintro ⟨b, σ', h⟩
      obtain ⟨a, σ₁, ha, hb⟩ := run_bind_eq_ok_iff.1 h
      exact ⟨hok.1 ⟨a, σ₁, ha⟩, (hf a σ₁ (hknown a σ₁ ha)).1.1 ⟨b, σ', hb⟩⟩
    · rintro ⟨h, h'⟩
      obtain ⟨a, σ₁, ha⟩ := hok.2 h
      obtain ⟨b, σ', hb⟩ := (hf a σ₁ (hknown a σ₁ ha)).1.2 h'
      exact ⟨b, σ', run_bind_eq_ok_iff.2 ⟨a, σ₁, ha, hb⟩⟩
  · intro b σ' h
    obtain ⟨a, σ₁, ha, hb⟩ := run_bind_eq_ok_iff.1 h
    exact (hf a σ₁ (hknown a σ₁ ha)).2 b σ' hb

theorem of_iff {x : TermReader α} (h : Reads x known ok known') (hok : ok ↔ ok') :
    Reads x known ok' known' := by
  rwa [← hok]

/-- A reference is read if it is bound, known or gives its type, and is known then unless it is
bound. -/
theorem reference (bound : List (String × Var)) (atom : String) :
    Reads (reference bound atom) known
      (Resolved known [.ofAtom (bound.map Prod.fst) atom])
      (known ++ freeNames [.ofAtom (bound.map Prod.fst) atom]) := by
  intro σ hσ
  have hmemFree : ∀ name, name ∈ known ++ freeNames [.ofAtom (bound.map Prod.fst) atom] ↔
      name ∈ known ∨ (referenceParts atom).1 ∉ bound.map Prod.fst ∧
        (referenceParts atom).1 = name := by
    simp [mem_freeNames_iff, Reference.ofAtom, and_comm]
  have hresolved : Resolved known [.ofAtom (bound.map Prod.fst) atom] ↔
      (referenceParts atom).1 ∈ bound.map Prod.fst ∨ (referenceParts atom).1 ∈ known ∨
        ∃ tag, (referenceParts atom).2 = some tag ∧ Ty.IsTag tag := by
    simp [resolved_cons, resolved_nil, Reference.ofAtom]
  simp only [hmemFree, hresolved]
  rw [run_reference]
  cases hbound : bound.lookup (referenceParts atom).1 with
  | some v =>
    have hmem := key_mem_of_lookup_eq_some hbound
    refine ⟨iff_of_true ⟨v, σ, rfl⟩ (.inl hmem), fun w σ' h => ?_⟩
    cases h
    simp [hσ, hmem]
  | none =>
    have hnotBound := lookup_eq_none_iff_notMem.1 hbound
    cases hfree : σ.free.lookup (referenceParts atom).1 with
    | some v =>
      have hmem := (hσ _).1 (key_mem_of_lookup_eq_some hfree)
      refine ⟨iff_of_true ⟨v, σ, rfl⟩ (.inr (.inl hmem)), fun w σ' h name => ?_⟩
      cases h
      rw [hσ]
      exact ⟨.inl, fun h => h.elim id fun h => h.2 ▸ hmem⟩
    | none =>
      have hnotFree := (hσ _).not.1 (lookup_eq_none_iff_notMem.1 hfree)
      cases htag : (referenceParts atom).2 with
      | none => simp [hnotBound, hnotFree]
      | some tag =>
        -- the name becomes known with the type that it is given here
        have htype : (∃ ty, Ty.read tag = .ok ty) ↔ Ty.IsTag tag := by
          simp only [Ty.read_eq_ok_iff, Ty.isTag_iff]
        cases hread : Ty.read tag with
        | error e =>
          have hnotTag : ¬Ty.IsTag tag := by
            rw [← htype, hread]
            simp
          simp [hread, Except.map, hnotBound, hnotFree, hnotTag]
        | ok ty =>
          simp only [hread, Except.map]
          have hisTag : Ty.IsTag tag := htype.1 ⟨ty, hread⟩
          refine ⟨iff_of_true ⟨_, _, rfl⟩ (.inr (.inr ⟨tag, rfl, hisTag⟩)), fun v σ' h name => ?_⟩
          cases h
          simp [← hσ, hnotBound, eq_comm, or_comm]

end Reads

/-! ### Expressions -/

/-- Reading the expression succeeds exactly if the grammar has it and its references are resolved,
and makes its free names known. -/
def Accepts (bound : List (String × Var)) (e : Sexp) : Prop :=
  ∀ known, Reads (term bound e) known
    (e.IsTerm (fun _ => True) ∧ Resolved known (e.references (bound.map Prod.fst)))
    (known ++ freeNames (e.references (bound.map Prod.fst)))

/-- Reading the expressions succeeds exactly if the grammar has them and their references are
resolved, and makes their free names known. -/
def AllAccepts (bound : List (String × Var)) (es : List Sexp) : Prop :=
  ∀ known, Reads (terms bound es) known
    ((∀ e ∈ es, e.IsTerm fun _ => True) ∧ Resolved known (allReferences (bound.map Prod.fst) es))
    (known ++ freeNames (allReferences (bound.map Prod.fst) es))

/-- **The reader follows the grammar.** -/
theorem accepts (bound : List (String × Var)) (e : Sexp) : Accepts bound e := by
  -- along the recursion of the reader, for the members of a list at the same time
  refine term.induct Accepts AllAccepts ?leaf ?constant ?lambda ?undeclared ?badLambda ?literal
    ?bad ?nil ?cons bound e
  case leaf =>
    intro bound text hvar known
    rw [term.eq_1, if_pos hvar, references, if_pos hvar]
    refine ((Reads.reference bound text).bind fun v => .pure _).of_iff ?_
    simp [isTerm_atom_iff_of_dollar hvar]
  case constant =>
    intro bound text hconst known
    rw [term.eq_1, if_neg hconst, references, if_neg hconst, freeNames_nil, List.append_nil]
    refine ((Reads.liftM (Constant.ofAtom text)).bind fun c => .pure _).of_iff ?_
    simp [isTerm_atom_iff_of_not_dollar hconst, resolved_nil]
  case lambda =>
    intro bound decl body name tag hdecl ih known
    rw [term.eq_2, references, declaration?_name hdecl]
    simp only [hdecl]
    -- which names the body may refer to does not depend on the new variable
    have hbody : ∀ v, Reads (term ((name, v) :: bound) body) known
        (body.IsTerm (fun _ => True) ∧
          Resolved known (body.references (name :: bound.map Prod.fst)))
        (known ++ freeNames (body.references (name :: bound.map Prod.fst))) := fun v => ih v known
    refine ((Reads.liftM (Ty.read tag)).bind fun ty => (Reads.newVar ty).bind fun v =>
      (hbody v).bind fun t => .pure _).of_iff ?_
    simp [isTerm_lambda_iff, hdecl, Ty.isTag_iff, Ty.read_eq_ok_iff, and_assoc]
  case undeclared =>
    intro bound decl body hdecl known
    rw [term.eq_2]
    simp only [hdecl]
    refine (Reads.throw _).of_iff ?_
    simp [isTerm_lambda_iff, hdecl]
  case badLambda =>
    intro bound es hes known
    rw [term.eq_3 bound es hes]
    have hnot : ¬Sexp.IsTerm (fun _ => True) (.list (.atom "lambda" :: es)) := by
      intro h
      cases h with
      | lam => exact hes _ _ rfl
      | lit _ hp => exact not_isTerm_lambda hp
    exact (Reads.throw _).of_iff (iff_of_false id fun h => hnot h.1)
  case literal =>
    intro bound p a as hlam hp ihp ihas known
    rw [term.eq_4 bound p a as hlam hp, references_list hp, freeNames_append, ← List.append_assoc]
    refine ((ihp known).bind fun q => (ihas _).bind fun bs => .pure _).of_iff ?_
    rw [resolved_append, isTerm_list_iff hp]
    simp only [ne_eq, reduceCtorEq, not_false_eq_true, true_and, and_true]
    tauto
  case bad =>
    intro bound es h₁ h₂ h₃ known
    rw [term.eq_5 bound es h₁ h₂ h₃]
    have hnot : ¬Sexp.IsTerm (fun _ => True) (.list es) := by
      intro h
      cases h with
      | lam => exact h₂ _ rfl
      | @lit p as has =>
        obtain ⟨a, as, rfl⟩ := List.exists_cons_of_ne_nil has
        exact h₃ p a as rfl
    exact (Reads.throw _).of_iff (iff_of_false id fun h => hnot h.1)
  case nil =>
    intro bound known
    rw [terms, allReferences, freeNames_nil, List.append_nil]
    exact (Reads.pure _).of_iff (by simp [resolved_nil])
  case cons =>
    intro bound e es ihe ihes known
    rw [terms, allReferences, freeNames_append, ← List.append_assoc]
    refine ((ihe known).bind fun t => (ihes _).bind fun ts => .pure _).of_iff ?_
    rw [resolved_append, List.forall_mem_cons]
    tauto

end TermReader

/-! ### Texts -/

namespace Term

theorem exists_read_iff {s : String} : (∃ t, Term.read s = .ok t) ↔ Admitted s := by
  have hread : (∃ t, Term.read s = .ok t) ↔ ∃ t n, readFrom 0 s = .ok (t, n) := by
    unfold Term.read
    cases readFrom 0 s with
    | error e => simp [Except.map]
    | ok p => exact iff_of_true ⟨p.1, rfl⟩ ⟨p.1, p.2, rfl⟩
  have haccepts : ∀ e : Sexp, (∃ t σ, (TermReader.term [] e).run ⟨[], 0⟩ = .ok (t, σ)) ↔
      e.IsTerm (fun _ => True) ∧ Resolved [] (e.references []) :=
    fun e => (accepts [] e [] ⟨[], 0⟩ (by simp)).1
  rw [hread]
  simp only [readFrom_eq_ok_iff, readAll_eq_ok_iff, Admitted, ← haccepts]
  constructor
  · rintro ⟨t, n, e, σ, hspells, hrun, -⟩
    exact ⟨e, hspells, t, σ, hrun⟩
  · rintro ⟨e, hspells, t, σ, hrun⟩
    exact ⟨t, σ.next, e, σ, hspells, hrun, rfl⟩

/-- **What the reader accepts.**  A text is read exactly if it is one logical form whose references
are bound, known or give a type.  So it accepts whatever is documented, and anything else only if
some reference has a malformed type. -/
theorem read_succeeds_iff (s : String) :
    ((∃ t, Term.read s = .ok t) ↔ Admitted s) ∧
      (Documented s ↔ (∃ t, Term.read s = .ok t) ∧ ∀ e, Spells [e] s.toList →
        ∀ r ∈ e.references [], ∀ tag, r.tag = some tag → Ty.IsTag tag) := by
  refine ⟨exists_read_iff, ?_⟩
  rw [exists_read_iff]
  exact documented_iff

/-- The type in a reference to a bound variable is not looked at. -/
theorem read_malformed_type :
    (∃ t, Term.read "(lambda $0:e $0:<)" = .ok t) ∧ ¬Documented "(lambda $0:e $0:<)" := by
  have hspells : Spells [.list [.atom "lambda", .atom "$0:e", .atom "$0:<"]]
      "(lambda $0:e $0:<)".toList := readAll_eq_ok_iff.1 (by rfl)
  constructor
  · exact ⟨.lam ⟨0, .atom "e"⟩ (.var ⟨0, .atom "e"⟩), by decide +kernel⟩
  · intro h
    have htag : Ty.IsTag ['<'] :=
      (documented_iff.1 h).2 _ hspells ⟨"$0", some ['<'], true⟩ (List.mem_singleton.2 rfl) _ rfl
    obtain ⟨ty, hty⟩ := Ty.isTag_iff.1 htag
    cases hty

end Term

end LogicalForms
