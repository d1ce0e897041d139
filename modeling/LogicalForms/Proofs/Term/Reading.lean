import LogicalForms.Proofs.List.Lookup
import LogicalForms.Proofs.Sexp.RoundTrip
import LogicalForms.Proofs.Term.Hygiene
import LogicalForms.Proofs.Term.Lexical
import LogicalForms.Proofs.Ty.Grammar

/-!
# What the reader of terms makes

The reader gives every binder and every free name an identity of its own
(`Term.distinctIds_of_readFrom`), so a term that it makes is hygienic
(`Term.hygienic_of_readFrom`).  Such a term is also legible
(`Term.legible_of_readFrom`): its constants and types are read back from their texts, and no
literal lacks arguments.  Simplification keeps a term legible (`Term.Legible.simplify`).
-/

namespace LogicalForms

open Text Sexp

/-! ### Legible terms -/

/-- The type is read back from its tag, which can stand in an atom. -/
structure Ty.Legible (ty : Ty) : Prop where
  ofTag?_tag : Ty.ofTag? ty.tag.toList = some ty
  isAtomChar : ∀ c ∈ ty.tag.toList, isAtomChar c = true

/-- The constant is read back from its text, which can stand in an atom. -/
structure Constant.Legible (c : Constant) : Prop where
  ofAtom_render : Constant.ofAtom c.render = .ok c
  isAtomChar : ∀ ch ∈ c.render.toList, isAtomChar ch = true

theorem Ty.legible_of_ofTag? {tag : List Char} {ty : Ty} (h : Ty.ofTag? tag = some ty) :
    ty.Legible := by
  obtain ⟨hreadable, htag⟩ := Ty.ofTag?_eq_some_iff.1 h
  exact ⟨by rw [htag, h], hreadable.isTag.isAtomChar⟩

theorem Constant.legible_of_ofAtom {atom : String} {c : Constant} (h : Constant.ofAtom atom = .ok c)
    (hchars : ∀ ch ∈ atom.toList, isAtomChar ch = true) : c.Legible := by
  have hrender : c.render = atom := Constant.render_of_ofAtom h
  exact ⟨by rw [hrender, h], by rwa [hrender]⟩

namespace Term

mutual

/-- The constants and types of the term are legible, and its literals have arguments. -/
def Legible : Term → Prop
  | .const c => c.Legible
  | .var v => v.ty.Legible
  | .lam v body => v.ty.Legible ∧ body.Legible
  | .lit p as => p.Legible ∧ as ≠ [] ∧ AllLegible as

/-- The terms are legible. -/
def AllLegible : List Term → Prop
  | [] => True
  | t :: ts => t.Legible ∧ AllLegible ts

end

theorem allLegible_iff {ts : List Term} : AllLegible ts ↔ ∀ t ∈ ts, t.Legible := by
  induction ts with
  | nil => simp [AllLegible]
  | cons t ts ih => simp [AllLegible, ih]

@[simp] theorem legible_lit {p : Term} {as : List Term} :
    (lit p as).Legible ↔ p.Legible ∧ as ≠ [] ∧ ∀ a ∈ as, a.Legible := by
  rw [Legible, allLegible_iff]

/-- **Simplification keeps a term legible.** -/
theorem Legible.simplify {t : Term} (h : t.Legible) (strip : Bool) :
    (t.simplify strip).Legible := by
  induction t with
  | const c => simpa using h
  | var v => simpa using h
  | lam v body ih =>
    rw [Legible] at h
    rw [simplify_lam]
    split_ifs
    · exact ih h.2
    · rw [Legible]
      exact ⟨h.1, ih h.2⟩
  | lit p as ihp ihas =>
    rw [legible_lit] at h
    rw [simplify_lit, legible_lit]
    refine ⟨ihp h.1, by simpa using h.2.1, fun b hb => ?_⟩
    obtain ⟨a, ha, rfl⟩ := List.mem_map.1 hb
    exact ihas a ha (h.2.2 a ha)

end Term

namespace TermReader

/-! ### Steps of the reader -/

section Steps

variable {α β : Type} {σ σ' : Supply}

theorem run_bind_eq_ok_iff {x : TermReader α} {f : α → TermReader β} {b : β} :
    (x >>= f).run σ = .ok (b, σ') ↔
      ∃ a σ₁, x.run σ = .ok (a, σ₁) ∧ (f a).run σ₁ = .ok (b, σ') := by
  rw [StateT.run_bind]
  cases x.run σ with
  | error e => simp [bind, Except.bind]
  | ok p =>
    obtain ⟨a, σ₁⟩ := p
    simp [bind, Except.bind]

theorem run_pure_eq_ok_iff {a b : α} :
    (pure a : TermReader α).run σ = .ok (b, σ') ↔ a = b ∧ σ = σ' := by
  change Except.ok (a, σ) = .ok (b, σ') ↔ _
  simp

theorem run_throw_eq_ok_iff {e : ReadError} {a : α} :
    (throw e : TermReader α).run σ = .ok (a, σ') ↔ False := by
  change Except.error e = .ok (a, σ') ↔ _
  simp

theorem run_liftM_eq_ok_iff {x : Except ReadError α} {a : α} :
    (liftM x : TermReader α).run σ = .ok (a, σ') ↔ x = .ok a ∧ σ = σ' := by
  change (x >>= fun a => Except.ok (a, σ)) = .ok (a, σ') ↔ _
  cases x <;> simp [bind, Except.bind]

theorem run_newVar (ty : Ty) :
    (newVar ty).run σ = .ok (⟨σ.next, ty⟩, { σ with next := σ.next + 1 }) := rfl

theorem run_newVar_eq_ok_iff {ty : Ty} {v : Var} :
    (newVar ty).run σ = .ok (v, σ') ↔
      v = ⟨σ.next, ty⟩ ∧ σ' = { σ with next := σ.next + 1 } := by
  rw [run_newVar]
  simp [eq_comm]

end Steps

/-- What a reference can be, and what it adds to the supply. -/
theorem of_run_reference {bound : List (String × Var)} {atom : String} {v : Var} {σ σ' : Supply}
    (h : (reference bound atom).run σ = .ok (v, σ')) :
    ((v ∈ bound.map Prod.snd ∨ v ∈ σ.free.map Prod.snd) ∧ σ' = σ) ∨
      ∃ name tag ty, splitAtFirst ':' atom.toList = some (name, tag) ∧ Ty.ofTag? tag = some ty ∧
        (v, σ') = introduce σ (String.ofList name) ty := by
  rw [run_reference] at h
  split at h
  · next hbound =>
    cases h
    exact .inl ⟨.inl (value_mem_of_lookup_eq_some hbound), rfl⟩
  · split at h
    · next hfree =>
      cases h
      exact .inl ⟨.inr (value_mem_of_lookup_eq_some hfree), rfl⟩
    · unfold referenceParts at h
      cases hsplit : splitAtFirst ':' atom.toList with
      | none => simp [hsplit] at h
      | some p =>
        obtain ⟨name, tag⟩ := p
        rw [hsplit] at h
        simp only at h
        cases hty : Ty.read tag with
        | error e => simp [hty, Except.map] at h
        | ok ty =>
          rw [hty] at h
          simp only [Except.map, Except.ok.injEq] at h
          exact .inr ⟨name, tag, ty, rfl, Ty.read_eq_ok_iff.1 hty, h.symm⟩

theorem declaration?_eq_some_iff {text name : String} {tag : List Char} :
    declaration? text = some (name, tag) ↔
      ∃ rest, splitAtFirst ':' text.toList = some ('$' :: rest, tag) ∧
        name = String.ofList ('$' :: rest) := by
  unfold declaration?
  split
  · next rest tag' hsplit =>
    simp only [Option.some.injEq, Prod.mk.injEq, hsplit]
    constructor
    · rintro ⟨rfl, rfl⟩
      exact ⟨rest, ⟨rfl, rfl⟩, rfl⟩
    · rintro ⟨rest', ⟨heq, rfl⟩, rfl⟩
      exact ⟨by rw [heq], rfl⟩
  · next hsplit =>
    simp only [reduceCtorEq, false_iff]
    rintro ⟨rest, h, -⟩
    exact hsplit rest tag h

/-! ### The identities that the reader gives out -/

/-- The variables that the reader knows: those in scope and the free ones met so far. -/
def known (bound : List (String × Var)) (σ : Supply) : List Var :=
  bound.map Prod.snd ++ σ.free.map Prod.snd

/-- The known variables have identities that were given out, and legible types. -/
structure Consistent (bound : List (String × Var)) (σ : Supply) : Prop where
  id_lt : ∀ v ∈ known bound σ, v.id < σ.next
  legible : ∀ v ∈ known bound σ, v.ty.Legible

/-- What reading the terms `ts` does to the supply and where their variables come from.  Binders
and new free variables get identities that were not given out before, and a leaf refers to a known
variable. -/
structure Introduces (bound : List (String × Var)) (σ σ' : Supply) (ts : List Term) : Prop where
  next_le : σ.next ≤ σ'.next
  free_subset : σ.free ⊆ σ'.free
  free_new : ∀ v ∈ σ'.free.map Prod.snd, v ∈ σ.free.map Prod.snd ∨ σ.next ≤ v.id
  consistent : Consistent bound σ'
  free_nodup : (σ.free.map fun p => p.2.id).Nodup → (σ'.free.map fun p => p.2.id).Nodup
  nodup : ((ts.flatMap Term.binders).map Var.id).Nodup
  binder_id : ∀ v ∈ ts.flatMap Term.binders, σ.next ≤ v.id ∧ v.id < σ'.next
  binder_not_free : ∀ v ∈ ts.flatMap Term.binders, ∀ w ∈ σ'.free.map Prod.snd, v.id ≠ w.id
  leaf_known : ∀ v ∈ ts.flatMap Term.freeLeaves, v ∈ known bound σ'
  legible : ∀ t ∈ ts, t.Legible

variable {bound : List (String × Var)} {σ σ₁ σ' : Supply} {ts us : List Term}

theorem known_subset (h : σ.free ⊆ σ'.free) : known bound σ ⊆ known bound σ' := by
  intro v hv
  simp only [known, List.mem_append, List.mem_map] at hv ⊢
  rcases hv with hv | ⟨p, hp, rfl⟩
  · exact .inl hv
  · exact .inr ⟨p, h hp, rfl⟩

theorem Introduces.nil (h : Consistent bound σ) : Introduces bound σ σ [] where
  next_le := Nat.le_refl _
  free_subset := List.Subset.refl _
  free_new v hv := .inl hv
  consistent := h
  free_nodup h := h
  nodup := by simp
  binder_id := by simp
  binder_not_free := by simp
  leaf_known := by simp
  legible := by simp

theorem Introduces.leaf (h : Consistent bound σ) {t : Term} (hb : t.binders = [])
    (hl : ∀ v ∈ t.freeLeaves, v ∈ known bound σ) (ht : t.Legible) : Introduces bound σ σ [t] where
  next_le := Nat.le_refl _
  free_subset := List.Subset.refl _
  free_new v hv := .inl hv
  consistent := h
  free_nodup h := h
  nodup := by simp [hb]
  binder_id := by simp [hb]
  binder_not_free := by simp [hb]
  leaf_known := by simpa using hl
  legible := by simpa using ht

theorem Introduces.append (h : Introduces bound σ σ₁ ts) (h' : Introduces bound σ₁ σ' us) :
    Introduces bound σ σ' (ts ++ us) := by
  have hle := h.next_le
  have hle' := h'.next_le
  constructor
  case next_le => exact Nat.le_trans hle hle'
  case free_subset => exact List.Subset.trans h.free_subset h'.free_subset
  case free_new =>
    intro v hv
    rcases h'.free_new v hv with hv | hv
    · exact h.free_new v hv
    · exact .inr (Nat.le_trans hle hv)
  case consistent => exact h'.consistent
  case free_nodup => exact fun hfree => h'.free_nodup (h.free_nodup hfree)
  case nodup =>
    -- the binders of the first part have smaller identities than those of the second
    rw [List.flatMap_append, List.map_append, List.nodup_append]
    refine ⟨h.nodup, h'.nodup, fun i hi j hj hij => ?_⟩
    obtain ⟨v, hv, rfl⟩ := List.mem_map.1 hi
    obtain ⟨w, hw, rfl⟩ := List.mem_map.1 hj
    have := (h.binder_id v hv).2
    have := (h'.binder_id w hw).1
    omega
  case binder_id =>
    intro v hv
    rw [List.flatMap_append, List.mem_append] at hv
    rcases hv with hv | hv
    · have := h.binder_id v hv
      omega
    · have := h'.binder_id v hv
      omega
  case binder_not_free =>
    intro v hv w hfree
    rw [List.flatMap_append, List.mem_append] at hv
    rcases hv with hv | hv
    · -- a free variable that is new in the second part cannot be a binder of the first
      rcases h'.free_new w hfree with hfree | hid
      · exact h.binder_not_free v hv w hfree
      · have := (h.binder_id v hv).2
        omega
    · exact h'.binder_not_free v hv w hfree
  case leaf_known =>
    intro v hv
    rw [List.flatMap_append, List.mem_append] at hv
    rcases hv with hv | hv
    · exact known_subset h'.free_subset (h.leaf_known v hv)
    · exact h'.leaf_known v hv
  case legible =>
    intro t ht
    rcases List.mem_append.1 ht with ht | ht
    · exact h.legible t ht
    · exact h'.legible t ht

theorem Introduces.lit {p : Term} {as : List Term} (h : Introduces bound σ σ' (p :: as))
    (has : as ≠ []) : Introduces bound σ σ' [.lit p as] where
  next_le := h.next_le
  free_subset := h.free_subset
  free_new := h.free_new
  consistent := h.consistent
  free_nodup := h.free_nodup
  nodup := by simpa using h.nodup
  binder_id := by simpa using h.binder_id
  binder_not_free := by simpa using h.binder_not_free
  leaf_known := by simpa using h.leaf_known
  legible := by
    have := h.legible
    simp only [List.mem_cons, forall_eq_or_imp] at this
    simpa using ⟨this.1, has, this.2⟩

/-- A new variable that is in scope in the body makes a lambda with it. -/
theorem Introduces.lam {name : String} {ty : Ty} {body : Term} (hσ : Consistent bound σ)
    (hty : ty.Legible)
    (h : Introduces ((name, ⟨σ.next, ty⟩) :: bound) { σ with next := σ.next + 1 } σ' [body]) :
    Introduces bound σ σ' [.lam ⟨σ.next, ty⟩ body] := by
  have hle : σ.next + 1 ≤ σ'.next := h.next_le
  have hfree : ∀ v ∈ σ'.free.map Prod.snd, v ∈ σ.free.map Prod.snd ∨ σ.next + 1 ≤ v.id :=
    h.free_new
  have hid : ∀ v ∈ body.binders, σ.next + 1 ≤ v.id ∧ v.id < σ'.next := by
    simpa using h.binder_id
  constructor
  case next_le => omega
  case free_subset => exact h.free_subset
  case free_new =>
    intro v hv
    rcases hfree v hv with hv | hv
    · exact .inl hv
    · exact .inr (by omega)
  case consistent =>
    exact ⟨fun v hv => h.consistent.id_lt v (by simp_all [known]),
      fun v hv => h.consistent.legible v (by simp_all [known])⟩
  case free_nodup => exact h.free_nodup
  case nodup =>
    have hnodup : (body.binders.map Var.id).Nodup := by simpa using h.nodup
    simp only [List.flatMap_cons, List.flatMap_nil, List.append_nil, Term.binders_lam,
      List.map_cons, List.nodup_cons]
    -- the binders of the body were made after the argument
    refine ⟨fun hmem => ?_, hnodup⟩
    obtain ⟨v, hv, heq⟩ := List.mem_map.1 hmem
    have := (hid v hv).1
    omega
  case binder_id =>
    simp only [List.flatMap_cons, List.flatMap_nil, List.append_nil, Term.binders_lam,
      List.mem_cons, forall_eq_or_imp]
    exact ⟨⟨Nat.le_refl _, hle⟩, fun v hv => ⟨by have := (hid v hv).1; omega, (hid v hv).2⟩⟩
  case binder_not_free =>
    simp only [List.flatMap_cons, List.flatMap_nil, List.append_nil, Term.binders_lam,
      List.mem_cons, forall_eq_or_imp]
    refine ⟨fun w hw => ?_, by simpa using h.binder_not_free⟩
    rcases hfree w hw with hw | hw
    · have : w.id < σ.next := hσ.id_lt w (List.mem_append.2 (.inr hw))
      omega
    · omega
  case leaf_known =>
    intro v hv
    simp only [List.flatMap_cons, List.flatMap_nil, List.append_nil, Term.freeLeaves_lam,
      List.mem_filter, decide_eq_true_eq] at hv
    have := h.leaf_known v (by simpa using hv.1)
    simpa [known, hv.2] using this
  case legible =>
    have hbody : body.Legible := by simpa using h.legible
    simpa [Term.Legible] using ⟨hty, hbody⟩

theorem Introduces.introduce (h : Consistent bound σ) {name : String} {ty : Ty} {v : Var}
    (hty : ty.Legible) (hv : (v, σ') = introduce σ name ty) :
    Introduces bound σ σ' [.var v] := by
  obtain ⟨rfl, rfl⟩ := Prod.mk.inj hv
  have hknown : ∀ w ∈ known bound ⟨(name, ⟨σ.next, ty⟩) :: σ.free, σ.next + 1⟩,
      w = ⟨σ.next, ty⟩ ∨ w ∈ known bound σ := by
    intro w hw
    simp only [known, List.map_cons, List.mem_append, List.mem_cons] at hw ⊢
    tauto
  constructor
  case next_le => exact Nat.le_succ _
  case free_subset => exact List.subset_cons_self _ _
  case free_new =>
    intro w hw
    rcases List.mem_cons.1 hw with rfl | hw
    · exact .inr (Nat.le_refl _)
    · exact .inl hw
  case consistent =>
    refine ⟨fun w hw => ?_, fun w hw => ?_⟩
    · rcases hknown w hw with rfl | hw
      · exact Nat.lt_succ_self _
      · exact Nat.lt_succ_of_lt (h.id_lt w hw)
    · rcases hknown w hw with rfl | hw
      · exact hty
      · exact h.legible w hw
  case free_nodup =>
    -- the identity of the new variable was not given out
    refine fun hfree => List.nodup_cons.2 ⟨fun hmem => ?_, hfree⟩
    obtain ⟨p, hp, heq⟩ := List.mem_map.1 hmem
    have : p.2.id < σ.next := h.id_lt p.2 (List.mem_append.2 (.inr (List.mem_map_of_mem hp)))
    exact absurd heq (Nat.ne_of_lt this)
  case nodup => simp
  case binder_id => simp
  case binder_not_free => simp
  case leaf_known => simp [known]
  case legible => simpa [Term.Legible] using hty

theorem introduces_of_run_reference {text : String} {v : Var} (hσ : Consistent bound σ)
    (h : (reference bound text).run σ = .ok (v, σ')) : Introduces bound σ σ' [.var v] := by
  rcases of_run_reference h with ⟨hv, rfl⟩ | ⟨name, tag, ty, -, hty, hv⟩
  · have hknown : v ∈ known bound σ' := List.mem_append.2 hv
    exact .leaf hσ rfl (by simpa using hknown) (hσ.legible v hknown)
  · exact .introduce hσ (Ty.legible_of_ofTag? hty) hv

/-- What reading the expression does to a consistent supply. -/
def Sound (bound : List (String × Var)) (e : Sexp) : Prop :=
  ∀ (t : Term) (σ σ' : Supply), e.WellFormed → Consistent bound σ →
    (term bound e).run σ = .ok (t, σ') → Introduces bound σ σ' [t]

/-- What reading the expressions does to a consistent supply. -/
def AllSound (bound : List (String × Var)) (es : List Sexp) : Prop :=
  ∀ (ts : List Term) (σ σ' : Supply), AllWellFormed es → Consistent bound σ →
    (terms bound es).run σ = .ok (ts, σ') → Introduces bound σ σ' ts ∧ ts.length = es.length

theorem sound_lambda {decl name : String} {body : Sexp} {tag : List Char}
    (hdecl : declaration? decl = some (name, tag)) (ih : ∀ v, Sound ((name, v) :: bound) body) :
    Sound bound (.list [.atom "lambda", .atom decl, body]) := by
  intro t σ σ' hword hσ h
  simp only [term.eq_2, hdecl, run_bind_eq_ok_iff, run_liftM_eq_ok_iff, run_newVar_eq_ok_iff,
    run_pure_eq_ok_iff, Ty.read_eq_ok_iff] at h
  obtain ⟨ty, σ₁, ⟨hty, rfl⟩, v, σ₂, ⟨rfl, rfl⟩, b, σ₃, hb, rfl, rfl⟩ := h
  obtain ⟨-, -, hbodyWord, -⟩ := hword
  have htyLegible : ty.Legible := Ty.legible_of_ofTag? hty
  refine .lam hσ htyLegible (ih _ b _ _ hbodyWord ?_ hb)
  -- the argument is the only new known variable
  refine ⟨fun w hw => ?_, fun w hw => ?_⟩
  · rcases List.mem_cons.1 hw with rfl | hw
    · exact Nat.lt_succ_self _
    · exact Nat.lt_succ_of_lt (hσ.id_lt w hw)
  · rcases List.mem_cons.1 hw with rfl | hw
    · exact htyLegible
    · exact hσ.legible w hw

/-- **What reading an expression does.** -/
theorem sound (bound : List (String × Var)) (e : Sexp) : Sound bound e := by
  -- along the recursion of the reader, for the members of a list at the same time
  refine term.induct Sound AllSound ?leaf ?constant ?lambda ?undeclared ?badLambda ?literal
    ?bad ?nil ?cons bound e
  case leaf =>
    intro bound text hvar t σ σ' _ hσ h
    rw [term.eq_1, if_pos hvar, run_bind_eq_ok_iff] at h
    obtain ⟨v, σ₁, hv, h⟩ := h
    obtain ⟨rfl, rfl⟩ := run_pure_eq_ok_iff.1 h
    exact introduces_of_run_reference hσ hv
  case constant =>
    intro bound text hconst t σ σ' hword hσ h
    rw [term.eq_1, if_neg hconst, run_bind_eq_ok_iff] at h
    obtain ⟨c, σ₁, hc, h⟩ := h
    obtain ⟨rfl, rfl⟩ := run_pure_eq_ok_iff.1 h
    obtain ⟨hatom, rfl⟩ := run_liftM_eq_ok_iff.1 hc
    exact .leaf hσ rfl (by simp) (Constant.legible_of_ofAtom hatom hword.2)
  case lambda => exact fun bound decl body name tag hdecl ih => sound_lambda hdecl ih
  case undeclared =>
    intro bound decl body hdecl t σ σ' _ _ h
    simp only [term.eq_2, hdecl, run_throw_eq_ok_iff] at h
  case badLambda =>
    intro bound es hes t σ σ' _ _ h
    simp only [term.eq_3 bound es hes, run_throw_eq_ok_iff] at h
  case literal =>
    intro bound p a as hlam hp ihp ihas t σ σ' hword hσ h
    simp only [term.eq_4 bound p a as hlam hp, run_bind_eq_ok_iff, run_pure_eq_ok_iff] at h
    obtain ⟨q, σ₁, hq, bs, σ₂, hbs, rfl, rfl⟩ := h
    have hq' := ihp q _ _ hword.1 hσ hq
    obtain ⟨hbs', hlength⟩ := ihas bs _ _ hword.2 hq'.consistent hbs
    refine .lit (hq'.append hbs') ?_
    rintro rfl
    simp at hlength
  case bad =>
    intro bound es h₁ h₂ h₃ t σ σ' _ _ h
    simp only [term.eq_5 bound es h₁ h₂ h₃, run_throw_eq_ok_iff] at h
  case nil =>
    intro bound ts σ σ' _ hσ h
    obtain ⟨rfl, rfl⟩ := run_pure_eq_ok_iff.1 h
    exact ⟨.nil hσ, rfl⟩
  case cons =>
    intro bound e es ihe ihes ts σ σ' hword hσ h
    simp only [terms, run_bind_eq_ok_iff, run_pure_eq_ok_iff] at h
    obtain ⟨t, σ₁, ht, us, σ₂, hus, rfl, rfl⟩ := h
    have ht' := ihe t _ _ hword.1 hσ ht
    obtain ⟨hus', hlength⟩ := ihes us _ _ hword.2 ht'.consistent hus
    exact ⟨ht'.append hus', by simp [hlength]⟩

/-- Outside of every lambda the terms that are made have variables with identities of their own. -/
theorem Introduces.distinctIds {t : Term} (h : Introduces [] σ σ' [t])
    (hσ : (σ.free.map fun p => p.2.id).Nodup) : t.DistinctIds := by
  have hnodup : (t.binders.map Var.id).Nodup := by simpa using h.nodup
  have hfree : ∀ v ∈ t.freeVars, v ∈ σ'.free.map Prod.snd := by
    intro v hv
    simpa [known] using h.leaf_known v (by simpa using Term.mem_freeVars.1 hv)
  have hids : ((σ'.free.map Prod.snd).map Var.id).Nodup := by
    rw [List.map_map]
    exact h.free_nodup hσ
  rw [Term.DistinctIds, List.map_append, List.nodup_append]
  refine ⟨hnodup, ?_, fun i hi j hj => ?_⟩
  · refine (Term.nodup_freeVars t).map_on fun v hv w hw hvw => ?_
    exact List.inj_on_of_nodup_map hids (hfree v hv) (hfree w hw) hvw
  · obtain ⟨v, hv, rfl⟩ := List.mem_map.1 hi
    obtain ⟨w, hw, rfl⟩ := List.mem_map.1 hj
    exact h.binder_not_free v (by simpa using hv) w (hfree w hw)

end TermReader

/-! ### The terms of a text -/

namespace Term

/-- A text is read without stacks. -/
theorem readFrom_eq (next : Nat) (s : String) :
    readFrom next s = Sexp.read s >>= fun
      | [e] => ((TermReader.term [] e).run ⟨[], next⟩).map fun p => (p.1, p.2.next)
      | es => .error (.notSingle es.length) := by
  unfold readFrom
  refine congrArg _ (funext fun es => ?_)
  match es with
  | [e] =>
    refine Eq.trans ?_ (TermReader.map_run_term e next)
    dsimp only
    cases (ScopedReader.term e).run ⟨⟨[], next⟩, []⟩ <;> rfl
  | [] | _ :: _ :: _ => rfl

theorem readFrom_of_readAll {next : Nat} {s : String} {e : Sexp}
    (hread : Sexp.readAll s.toList = .ok [e]) :
    readFrom next s = ((TermReader.term [] e).run ⟨[], next⟩).map fun p => (p.1, p.2.next) := by
  rw [readFrom_eq, Sexp.read, hread]
  rfl

theorem readFrom_eq_ok_iff {next n : Nat} {s : String} {t : Term} :
    readFrom next s = .ok (t, n) ↔
      ∃ e σ, Sexp.readAll s.toList = .ok [e] ∧
        (TermReader.term [] e).run ⟨[], next⟩ = .ok (t, σ) ∧ σ.next = n := by
  constructor
  · intro h
    obtain ⟨e, hread⟩ : ∃ e, Sexp.readAll s.toList = .ok [e] := by
      rw [readFrom_eq, Sexp.read] at h
      cases hread : Sexp.readAll s.toList with
      | error place => simp [hread, bind, Except.bind] at h
      | ok es =>
        match es with
        | [e] => exact ⟨e, rfl⟩
        | [] | _ :: _ :: _ => simp [hread, bind, Except.bind] at h
    rw [readFrom_of_readAll hread] at h
    cases hrun : (TermReader.term [] e).run ⟨[], next⟩ with
    | error err => simp [hrun, Except.map] at h
    | ok p =>
      obtain ⟨rfl, rfl⟩ : p.1 = t ∧ p.2.next = n := by simpa [hrun, Except.map] using h
      exact ⟨e, p.2, hread, hrun, rfl⟩
  · rintro ⟨e, σ, hread, hrun, rfl⟩
    rw [readFrom_of_readAll hread, hrun]
    rfl

theorem readFrom_eq_error {next : Nat} {s : String} {e : Sexp} {err : ReadError}
    (hread : Sexp.readAll s.toList = .ok [e])
    (hrun : (TermReader.term [] e).run ⟨[], next⟩ = .error err) : readFrom next s = .error err := by
  rw [readFrom_of_readAll hread, hrun]
  rfl

variable {next n : Nat} {s : String} {t : Term}

/-- What reading a text does, from the empty scope. -/
theorem introduces_of_readFrom (h : readFrom next s = .ok (t, n)) :
    ∃ σ, TermReader.Introduces [] ⟨[], next⟩ σ [t] := by
  obtain ⟨e, σ, hread, hrun, -⟩ := readFrom_eq_ok_iff.1 h
  have hword : e.WellFormed := Sexp.wellFormed_of_readAll hread e (by simp)
  exact ⟨σ, TermReader.sound [] e t _ _ hword ⟨by simp [TermReader.known],
    by simp [TermReader.known]⟩ hrun⟩

/-- **The variables of a term that was read have identities of their own.** -/
theorem distinctIds_of_readFrom (h : readFrom next s = .ok (t, n)) : t.DistinctIds := by
  obtain ⟨σ, ht⟩ := introduces_of_readFrom h
  exact ht.distinctIds (by simp)

/-- **A term that was read is hygienic.** -/
theorem hygienic_of_readFrom (h : readFrom next s = .ok (t, n)) : t.Hygienic :=
  (distinctIds_of_readFrom h).hygienic

/-- **A term that was read is legible.** -/
theorem legible_of_readFrom (h : readFrom next s = .ok (t, n)) : t.Legible := by
  obtain ⟨σ, ht⟩ := introduces_of_readFrom h
  exact ht.legible t (by simp)

end Term

end LogicalForms
