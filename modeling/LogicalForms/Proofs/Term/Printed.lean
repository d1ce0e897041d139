import LogicalForms.Proofs.Term.Numbering
import LogicalForms.Proofs.Term.Reading

/-!
# Reading printed expressions

What the printer writes for a legible term is made of words (`Term.Legible.wellFormed_toSexpFrom`)
and is never taken for a lambda where it is none (`Term.toSexpFrom_ne_lambda`).  For every kind of
printed expression one equation says what the reader does with it: constants, names that are known
(`TermReader.run_term_name`) or not, declarations, lambdas, and literals.
-/

namespace LogicalForms

open Text Sexp LogicalForms.Numbering

/-! ### Printed expressions -/

theorem isAtomChar_of_isDigit {c : Char} (h : c.isDigit = true) : isAtomChar c = true := by
  have hrange : 48 ≤ c.toNat ∧ c.toNat ≤ 57 := by
    simpa [Char.isDigit, UInt32.le_iff_toNat_le] using h
  rw [isAtomChar_iff]
  refine ⟨?_, ?_, ?_⟩
  · -- the digits lie between the blank and the other spaces
    simp [isSpace]
    omega
  · rintro rfl
    exact absurd h (by decide)
  · rintro rfl
    exact absurd h (by decide)

theorem Numbering.isAtomChar_of_mem_name {n : Nat} {c : Char} (h : c ∈ (name n).toList) :
    isAtomChar c = true := by
  rw [toList_name, List.mem_cons] at h
  rcases h with rfl | h
  · decide
  · exact isAtomChar_of_isDigit (Nat.isDigit_of_mem_toDigits (by decide) (by decide) h)

theorem Numbering.isWord_name (n : Nat) : IsWord (name n).toList :=
  ⟨by simp [toList_name], fun _ => isAtomChar_of_mem_name⟩

theorem Var.isWord_declaration {v : Var} (h : v.ty.Legible) (n : Nat) :
    IsWord (v.declaration n).toList := by
  refine ⟨by simp [toList_declaration], fun c hc => ?_⟩
  rw [toList_declaration, List.mem_append, List.mem_cons] at hc
  rcases hc with hc | rfl | hc
  · exact isAtomChar_of_mem_name hc
  · decide
  · exact h.isAtomChar c hc

theorem Constant.Legible.isWord_render {c : Constant} (h : c.Legible) : IsWord c.render.toList :=
  ⟨by simp [Constant.render], h.isAtomChar⟩

theorem Constant.Legible.head?_render {c : Constant} (h : c.Legible) :
    c.render.toList.head? ≠ some '$' := by
  obtain ⟨ch, rest, tag, hsplit, hne, -, -⟩ := Constant.ofAtom_eq_ok_iff.1 h.ofAtom_render
  rw [(splitAtLast_eq_some hsplit).1]
  simpa using hne

namespace Term

theorem allWellFormed_allToSexpFrom {ts : List Term}
    (h : ∀ t ∈ ts, ∀ ν, (t.toSexpFrom ν).1.WellFormed) (ν : Numbering) :
    AllWellFormed (allToSexpFrom ν ts).1 := by
  induction ts generalizing ν with
  | nil => trivial
  | cons t ts ih =>
    rw [allToSexpFrom_cons]
    exact ⟨h t (by simp) ν, ih (fun u hu => h u (by simp [hu])) _⟩

theorem Legible.wellFormed_toSexpFrom {t : Term} (h : t.Legible) (ν : Numbering) :
    (t.toSexpFrom ν).1.WellFormed := by
  induction t generalizing ν with
  | const c =>
    rw [toSexpFrom]
    exact Constant.Legible.isWord_render h
  | var v =>
    rw [toSexpFrom_var]
    split
    · exact isWord_name _
    · exact Var.isWord_declaration h _
  | lam v body ih =>
    rw [Legible] at h
    rw [toSexpFrom_lam]
    have hlambda : "lambda".toList.all isAtomChar = true := by decide
    refine ⟨⟨by decide, ?_⟩, Var.isWord_declaration h.1 _, ih h.2 _, trivial⟩
    exact List.all_eq_true.1 hlambda
  | lit p as ihp ihas =>
    rw [legible_lit] at h
    rw [toSexpFrom_lit]
    exact ⟨ihp h.1 ν, allWellFormed_allToSexpFrom (fun a ha ν => ihas a ha (h.2.2 a ha) ν) _⟩

theorem toSexpFrom_ne_lambda (t : Term) (ν : Numbering) :
    (t.toSexpFrom ν).1 ≠ .atom "lambda" := by
  have hcolon : ':' ∉ "lambda".toList := by decide
  have hdollar : '$' ∉ "lambda".toList := by decide
  intro h
  cases t with
  | const c =>
    rw [toSexpFrom, Sexp.atom.injEq] at h
    rw [← h] at hcolon
    simp [Constant.render] at hcolon
  | var v =>
    rw [toSexpFrom_var] at h
    split at h
    · rw [Sexp.atom.injEq] at h
      rw [← h, toList_name] at hdollar
      simp at hdollar
    · rw [Sexp.atom.injEq] at h
      rw [← h, Var.toList_declaration] at hcolon
      simp at hcolon
  | lam v body => simp [toSexpFrom_lam] at h
  | lit p as => simp [toSexpFrom_lit] at h

theorem allToSexpFrom_ne_nil {ts : List Term} (h : ts ≠ []) (ν : Numbering) :
    (allToSexpFrom ν ts).1 ≠ [] := by
  obtain ⟨t, ts, rfl⟩ := List.exists_cons_of_ne_nil h
  rw [allToSexpFrom_cons]
  exact List.cons_ne_nil _ _

end Term

namespace TermReader

/-! ### Names that the reader knows -/

/-- The variable that the reader knows by a name. -/
def resolve (bound : List (String × Var)) (σ : Supply) (name : String) : Option Var :=
  (bound.lookup name).or (σ.free.lookup name)

variable {bound : List (String × Var)} {σ σ' : Supply} {v w : Var}

theorem run_reference_of_resolve {atom : String}
    (h : resolve bound σ (referenceParts atom).1 = some v) :
    (reference bound atom).run σ = .ok (v, σ) := by
  rw [run_reference]
  rw [resolve, Option.or_eq_some_iff] at h
  rcases h with h | ⟨hbound, hfree⟩
  · simp [h]
  · simp [hbound, hfree]

theorem run_reference_of_resolve_eq_none {atom : String} {tag : List Char} {ty : Ty}
    (h : resolve bound σ (referenceParts atom).1 = none)
    (htag : (referenceParts atom).2 = some tag) (hty : Ty.ofTag? tag = some ty) :
    (reference bound atom).run σ = .ok (introduce σ (referenceParts atom).1 ty) := by
  rw [run_reference]
  rw [resolve, Option.or_eq_none_iff] at h
  simp [h.1, h.2, htag, Ty.read_eq_ok_iff.2 hty, Except.map]

theorem referenceParts_name (n : Nat) : referenceParts (name n) = (name n, none) := by
  simp [referenceParts, splitAtFirst_name]

theorem referenceParts_declaration (v : Var) (n : Nat) :
    referenceParts (v.declaration n) = (name n, some v.ty.tag.toList) := by
  simp [referenceParts, Var.splitAtFirst_declaration]

theorem declaration?_declaration (v : Var) (n : Nat) :
    declaration? (v.declaration n) = some (name n, v.ty.tag.toList) := by
  rw [declaration?_eq_some_iff]
  refine ⟨Nat.toDigits 10 n, ?_, ?_⟩
  · rw [Var.splitAtFirst_declaration, toList_name]
  · rw [← toList_name, String.ofList_toList]

/-! ### What the reader does with printed expressions -/

theorem run_term_const {c : Constant} (hc : c.Legible) :
    (term bound (.atom c.render)).run σ = .ok (.const c, σ) := by
  rw [term.eq_1, if_neg hc.head?_render, run_bind_eq_ok_iff]
  exact ⟨c, σ, run_liftM_eq_ok_iff.2 ⟨hc.ofAtom_render, rfl⟩, rfl⟩

theorem head?_name (n : Nat) : (name n).toList.head? = some '$' := by simp [toList_name]

theorem run_term_name {n : Nat} (h : resolve bound σ (name n) = some w) :
    (term bound (.atom (name n))).run σ = .ok (.var w, σ) := by
  rw [term.eq_1, if_pos (head?_name n), run_bind_eq_ok_iff]
  exact ⟨w, σ, run_reference_of_resolve (by rwa [referenceParts_name]), rfl⟩

theorem run_term_name_of_unknown {n : Nat} (h : resolve bound σ (name n) = none) :
    (term bound (.atom (name n))).run σ = .error (.unbound (name n)) := by
  rw [resolve, Option.or_eq_none_iff] at h
  have hrun : (reference bound (name n)).run σ = .error (.unbound (name n)) := by
    rw [run_reference, referenceParts_name]
    simp [h.1, h.2]
  rw [term.eq_1, if_pos (head?_name n), StateT.run_bind, hrun]
  rfl

theorem run_term_declaration {n : Nat} (hv : v.ty.Legible)
    (h : resolve bound σ (name n) = none) :
    (term bound (.atom (v.declaration n))).run σ =
      .ok (.var ⟨σ.next, v.ty⟩, (introduce σ (name n) v.ty).2) := by
  have hhead : (v.declaration n).toList.head? = some '$' := by
    simp [Var.toList_declaration, toList_name]
  have hname : (referenceParts (v.declaration n)).1 = name n := by
    rw [referenceParts_declaration]
  have hrun : (reference bound (v.declaration n)).run σ = .ok (introduce σ (name n) v.ty) := by
    rw [← hname] at h ⊢
    exact run_reference_of_resolve_eq_none h (by rw [referenceParts_declaration]) hv.ofTag?_tag
  rw [term.eq_1, if_pos hhead, run_bind_eq_ok_iff]
  exact ⟨_, _, hrun, rfl⟩

theorem run_term_lambda (hv : v.ty.Legible) (n : Nat) (e : Sexp) :
    (term bound (.list [.atom "lambda", .atom (v.declaration n), e])).run σ =
      ((term ((name n, ⟨σ.next, v.ty⟩) :: bound) e).run { σ with next := σ.next + 1 }).map
        fun p => (.lam ⟨σ.next, v.ty⟩ p.1, p.2) := by
  simp only [term.eq_2, declaration?_declaration, Ty.read_eq_ok_iff.2 hv.ofTag?_tag]
  change ((term ((name n, ⟨σ.next, v.ty⟩) :: bound) e).run { σ with next := σ.next + 1 } >>=
    fun p => Except.ok (Term.lam ⟨σ.next, v.ty⟩ p.1, p.2)) = _
  cases (term ((name n, ⟨σ.next, v.ty⟩) :: bound) e).run { σ with next := σ.next + 1 } <;> rfl

theorem run_terms_cons (e : Sexp) (es : List Sexp) :
    (terms bound (e :: es)).run σ =
      (term bound e).run σ >>= fun p =>
        ((terms bound es).run p.2).map fun q => (p.1 :: q.1, q.2) := by
  rw [terms, StateT.run_bind]
  refine bind_congr fun p => ?_
  rw [StateT.run_bind]
  cases (terms bound es).run p.2 <;> rfl

theorem run_term_literal {e : Sexp} {es : List Sexp} (he : e ≠ .atom "lambda") (hes : es ≠ []) :
    (term bound (.list (e :: es))).run σ =
      (term bound e).run σ >>= fun p =>
        ((terms bound es).run p.2).map fun q => (.lit p.1 q.1, q.2) := by
  obtain ⟨a, as, rfl⟩ := List.exists_cons_of_ne_nil hes
  rw [term.eq_4 _ _ _ _ (fun _ _ h _ _ => he h) he, StateT.run_bind]
  refine bind_congr fun p => ?_
  rw [StateT.run_bind]
  cases (terms bound (a :: as)).run p.2 <;> rfl

end TermReader

end LogicalForms
