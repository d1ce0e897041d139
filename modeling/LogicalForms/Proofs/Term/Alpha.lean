import LogicalForms.Proofs.List.Lookup
import LogicalForms.Proofs.Term.Renaming

/-!
# Alpha-equivalence

Two terms are alpha-equivalent (`Term.AlphaEq`) when they have the same shape and the same
constants, every two leaves at the same place refer to binders at the same place or to free
variables that come at the same place in the order of first appearance, and variables that belong
together have the same type.

* Terms that differ only as some one-to-one pairing of variables says are alpha-equivalent
  (`Term.AlphaUnder.alphaEq`).
* Terms with a common renaming are alpha-equivalent (`Term.alphaEq_of_rename_eq`).  Conversely, if
  the variables of an alpha-equivalent term have identities of their own, it is a renaming of every
  hygienic term (`Term.AlphaEq.renamesTo`).
* Hygienic terms that are alpha-equivalent are written in the same way
  (`Term.AlphaEq.render_eq`).  Without hygiene this fails: the printer does not forget a binder
  behind its lambda, and writes a free leaf of the same variable there as if it were bound.
-/

namespace LogicalForms

/-- Pairs of variables, each of the left and of the right term, that belong together. -/
abbrev Pairing := List (Var × Var)

namespace Pairing

/-- The leaves `v` and `w` refer to binders at the same place, where `ρ` are the binders around
them, the innermost first, or to free variables that `φ` pairs. -/
def Corresponds (φ : Pairing) : (ρ : Pairing) → Var → Var → Prop
  | [], v, w => (v, w) ∈ φ
  | (x, y) :: ρ, v, w => (v = x ∧ w = y) ∨ (v ≠ x ∧ w ≠ y ∧ Corresponds φ ρ v w)

/-- The pairing is one-to-one and pairs variables of one type only. -/
structure Matches (φ : Pairing) : Prop where
  fst_eq_iff : ∀ p ∈ φ, ∀ q ∈ φ, p.1 = q.1 ↔ p.2 = q.2
  ty_eq : ∀ p ∈ φ, p.1.ty = p.2.ty

variable {φ ρ : Pairing} {v w v' w' : Var}

theorem eq_of_mem_zip_of_map_eq {α β γ : Type} {f : α → γ} {g : β → γ} {as : List α} {bs : List β}
    (h : as.map f = bs.map g) {a : α} {b : β} (hab : (a, b) ∈ as.zip bs) : f a = g b := by
  have hall : List.Forall₂ (· = ·) (as.map f) (bs.map g) := by rwa [List.forall₂_eq_eq_eq]
  rw [List.forall₂_map_left_iff, List.forall₂_map_right_iff] at hall
  exact List.forall₂_zip hall hab

/-- Variables of the same types, all different on either side, paired one after the other. -/
theorem matches_zip {vs ws : List Var} (hvs : vs.Nodup) (hws : ws.Nodup)
    (hty : vs.map Var.ty = ws.map Var.ty) : Matches (vs.zip ws) := by
  have hlength : vs.length = ws.length := by simpa using congrArg List.length hty
  rw [← List.map_fst_zip (Nat.le_of_eq hlength)] at hvs
  rw [← List.map_snd_zip (Nat.le_of_eq hlength.symm)] at hws
  refine ⟨fun p hp q hq => ⟨fun h => ?_, fun h => ?_⟩, fun p hp => ?_⟩
  · rw [List.inj_on_of_nodup_map hvs hp hq h]
  · rw [List.inj_on_of_nodup_map hws hp hq h]
  · exact eq_of_mem_zip_of_map_eq hty hp

theorem Corresponds.eq_iff (hφ : φ.Matches) (h : Corresponds φ ρ v w)
    (h' : Corresponds φ ρ v' w') : v = v' ↔ w = w' := by
  induction ρ with
  | nil => exact hφ.fst_eq_iff _ h _ h'
  | cons p ρ ih =>
    obtain ⟨x, y⟩ := p
    rcases h with ⟨rfl, rfl⟩ | ⟨hv, hw, h⟩ <;> rcases h' with ⟨rfl, rfl⟩ | ⟨hv', hw', h'⟩
    · simp
    · exact ⟨fun heq => absurd heq.symm hv', fun heq => absurd heq.symm hw'⟩
    · exact ⟨fun heq => absurd heq hv, fun heq => absurd heq hw⟩
    · exact ih h h'

theorem Corresponds.ty_eq (hφ : φ.Matches) (hρ : ∀ p ∈ ρ, p.1.ty = p.2.ty)
    (h : Corresponds φ ρ v w) : v.ty = w.ty := by
  induction ρ with
  | nil => exact hφ.ty_eq _ h
  | cons p ρ ih =>
    obtain ⟨x, y⟩ := p
    rcases h with ⟨rfl, rfl⟩ | ⟨-, -, h⟩
    · exact hρ (v, w) (by simp)
    · exact ih (fun q hq => hρ q (by simp [hq])) h

theorem Corresponds.mono {φ' : Pairing} (h : Corresponds φ ρ v w)
    (hφ : v ∉ ρ.map Prod.fst → (v, w) ∈ φ → (v, w) ∈ φ') : Corresponds φ' ρ v w := by
  induction ρ with
  | nil => exact hφ (by simp) h
  | cons p ρ ih =>
    obtain ⟨x, y⟩ := p
    rcases h with h | ⟨hv, hw, h⟩
    · exact .inl h
    · exact .inr ⟨hv, hw, ih h fun hρ => hφ (by simpa [hv] using hρ)⟩

theorem Corresponds.apply_eq {r : Var → Var} (h : Corresponds φ ρ v w)
    (hφ : ∀ p ∈ φ, r p.1 = p.2) (hρ : ∀ p ∈ ρ, r p.1 = p.2) : r v = w := by
  induction ρ with
  | nil => exact hφ _ h
  | cons p ρ ih =>
    rw [List.forall_mem_cons] at hρ
    rcases h with ⟨rfl, rfl⟩ | ⟨-, -, h⟩
    · exact hρ.1
    · exact ih h hρ.2

end Pairing

open Pairing

namespace Term

mutual

/-- The terms differ only in their bound variables, and in the free ones as `φ` pairs them; `ρ` are
the binders around them, the innermost first. -/
def AlphaUnder (φ ρ : Pairing) : Term → Term → Prop
  | .const c, .const d => c = d
  | .var v, .var w => Corresponds φ ρ v w
  | .lam v s, .lam w t => v.ty = w.ty ∧ AlphaUnder φ ((v, w) :: ρ) s t
  | .lit p as, .lit q bs => AlphaUnder φ ρ p q ∧ AllAlphaUnder φ ρ as bs
  | _, _ => False

/-- As many terms on the left as on the right, which differ in their variables only. -/
def AllAlphaUnder (φ ρ : Pairing) : List Term → List Term → Prop
  | [], [] => True
  | s :: ss, t :: ts => AlphaUnder φ ρ s t ∧ AllAlphaUnder φ ρ ss ts
  | _, _ => False

end

theorem allAlphaUnder_iff {φ ρ : Pairing} {ss ts : List Term} :
    AllAlphaUnder φ ρ ss ts ↔ List.Forall₂ (AlphaUnder φ ρ) ss ts := by
  induction ss generalizing ts with
  | nil => cases ts <;> simp [AllAlphaUnder]
  | cons s ss ih => cases ts <;> simp [AllAlphaUnder, ih]

/-- The free variables of two terms, paired in order of first appearance. -/
def freePairs (t u : Term) : Pairing := t.freeVars.zip u.freeVars

/-- The terms differ in the identities of their variables only.  Free variables are matched in
order of first appearance. -/
def AlphaEq (t u : Term) : Prop :=
  t.freeVars.map Var.ty = u.freeVars.map Var.ty ∧ AlphaUnder (freePairs t u) [] t u

/-! ### Any pairing of the free variables -/

section FreePairing

variable {φ φ' ρ : Pairing} {t u : Term}

theorem forall₂_filter_corresponds {vs ws : List Var} {x y : Var}
    (h : List.Forall₂ (Corresponds φ ((x, y) :: ρ)) vs ws) :
    List.Forall₂ (Corresponds φ ρ) (vs.filter (· ≠ x)) (ws.filter (· ≠ y)) := by
  induction h with
  | nil => exact .nil
  | cons hvw _ ih =>
    rcases hvw with ⟨rfl, rfl⟩ | ⟨hv, hw, hvw⟩
    · rwa [List.filter_cons_of_neg (by simp), List.filter_cons_of_neg (by simp)]
    · rw [List.filter_cons_of_pos (by simpa using hv), List.filter_cons_of_pos (by simpa using hw)]
      exact .cons hvw ih

/-- What belongs together in terms at the same place does so in the terms of the lists. -/
theorem forall₂_flatMap {R : Term → Term → Prop} {S : Var → Var → Prop} {f : Term → List Var}
    {as bs : List Term} (h : List.Forall₂ R as bs)
    (hf : ∀ a ∈ as, ∀ b, R a b → List.Forall₂ S (f a) (f b)) :
    List.Forall₂ S (as.flatMap f) (bs.flatMap f) := by
  induction h with
  | nil => exact .nil
  | cons hab _ ih =>
    exact List.rel_append (hf _ (by simp) _ hab) (ih fun a ha => hf a (by simp [ha]))

theorem AlphaUnder.forall₂_freeLeaves (h : AlphaUnder φ ρ t u) :
    List.Forall₂ (Corresponds φ ρ) t.freeLeaves u.freeLeaves := by
  induction t generalizing u ρ with
  | const c =>
    cases u <;> simp only [AlphaUnder] at h
    exact .nil
  | var v =>
    cases u <;> simp only [AlphaUnder] at h
    exact .cons h .nil
  | lam v body ih =>
    cases u <;> simp only [AlphaUnder] at h
    exact forall₂_filter_corresponds (ih h.2)
  | lit p as ihp ihas =>
    cases u with
    | lit q bs =>
      rw [AlphaUnder, allAlphaUnder_iff] at h
      rw [freeLeaves_lit, freeLeaves_lit]
      exact List.rel_append (ihp h.1) (forall₂_flatMap h.2 fun a ha _ => ihas a ha)
    | const c => simp [AlphaUnder] at h
    | var w => simp [AlphaUnder] at h
    | lam w s => simp [AlphaUnder] at h

/-- Only the pairs of the free leaves matter. -/
theorem AlphaUnder.mono (h : AlphaUnder φ ρ t u)
    (hφ : ∀ v ∈ t.freeLeaves, v ∉ ρ.map Prod.fst → ∀ w, (v, w) ∈ φ → (v, w) ∈ φ') :
    AlphaUnder φ' ρ t u := by
  induction t generalizing u ρ with
  | const c => cases u <;> exact h
  | var v =>
    cases u with
    | var w => exact Corresponds.mono h fun hv => hφ v (by simp) hv w
    | const c => exact h
    | lam w s => exact h
    | lit q bs => exact h
  | lam v body ih =>
    cases u with
    | lam w s =>
      refine ⟨h.1, ih h.2 fun x hx hρ => hφ x ?_ ?_⟩
      · rw [List.map_cons, List.mem_cons, not_or] at hρ
        simp [hx, hρ.1]
      · exact fun hmem => hρ (List.mem_cons_of_mem _ hmem)
    | const c => exact h
    | var w => exact h
    | lit q bs => exact h
  | lit p as ihp ihas =>
    cases u with
    | lit q bs =>
      rw [AlphaUnder, allAlphaUnder_iff, List.forall₂_iff_zip] at h ⊢
      simp only [freeLeaves_lit, List.mem_append, List.mem_flatMap] at hφ
      refine ⟨ihp h.1 fun v hv => hφ v (.inl hv), h.2.1, fun {a b} hab => ?_⟩
      have ha := (List.of_mem_zip hab).1
      exact ihas a ha (h.2.2 hab) fun v hv => hφ v (.inr ⟨a, ha, hv⟩)
    | const c => exact h
    | var w => exact h
    | lam w s => exact h

/-- A one-to-one pairing is a function on the variables that it pairs. -/
theorem exists_eq_map_of_matches (hφ : φ.Matches) {vs ws : List Var}
    (h : List.Forall₂ (fun v w => (v, w) ∈ φ) vs ws) :
    ∃ r : Var → Var, ws = vs.map r ∧ ∀ v ∈ vs, (v, r v) ∈ φ := by
  let r : Var → Var := fun v => (φ.lookup v).getD v
  have hr : ∀ {v w : Var}, (v, w) ∈ φ → r v = w := by
    intro v w hvw
    show (φ.lookup v).getD v = w
    cases hv : φ.lookup v with
    | none => exact absurd (List.mem_map.2 ⟨(v, w), hvw, rfl⟩) (lookup_eq_none_iff_notMem.1 hv)
    | some w' => exact (hφ.fst_eq_iff _ (mem_of_lookup_eq_some hv) _ hvw).1 rfl
  refine ⟨r, ?_⟩
  induction h with
  | nil => simp
  | cons hvw _ ih =>
    rw [List.map_cons, hr hvw, ← ih.1, List.forall_mem_cons, hr hvw]
    exact ⟨rfl, hvw, ih.2⟩

/-- **Terms that differ only as some one-to-one pairing says are alpha-equivalent.** -/
theorem AlphaUnder.alphaEq (hφ : φ.Matches) (h : AlphaUnder φ [] t u) : AlphaEq t u := by
  obtain ⟨r, hr, hmem⟩ := exists_eq_map_of_matches hφ h.forall₂_freeLeaves
  have hfree : u.freeVars = t.freeVars.map r := by
    rw [freeVars, freeVars, hr]
    exact eraseDups_map fun v hv w hw => (hφ.fst_eq_iff _ (hmem v hv) _ (hmem w hw)).2
  have hpairs : freePairs t u = t.freeVars.map fun v => (v, r v) := by
    rw [freePairs, hfree, List.map_prod_left_eq_zip]
  constructor
  · rw [hfree, List.map_map]
    exact List.map_congr_left fun v hv => hφ.ty_eq _ (hmem v (mem_freeVars.1 hv))
  · refine h.mono fun v hv _ w hvw => ?_
    have hw : r v = w := (hφ.fst_eq_iff _ (hmem v hv) _ hvw).1 rfl
    rw [hpairs, ← hw]
    exact List.mem_map.2 ⟨v, mem_freeVars.2 hv, rfl⟩

end FreePairing

theorem matches_freePairs {t u : Term} (h : t.freeVars.map Var.ty = u.freeVars.map Var.ty) :
    (freePairs t u).Matches :=
  matches_zip (nodup_freeVars t) (nodup_freeVars u) h

/-! ### Alpha-equivalent terms with variables of their own -/

section Renaming

variable {φ ρ : Pairing} {r : Var → Var} {t u : Term}

theorem AlphaUnder.forall₂_binders (h : AlphaUnder φ ρ t u) :
    List.Forall₂ (fun v w => v.ty = w.ty) t.binders u.binders := by
  induction t generalizing u ρ with
  | const c =>
    cases u <;> simp only [AlphaUnder] at h
    exact .nil
  | var v =>
    cases u <;> simp only [AlphaUnder] at h
    exact .nil
  | lam v body ih =>
    cases u <;> simp only [AlphaUnder] at h
    exact .cons h.1 (ih h.2)
  | lit p as ihp ihas =>
    cases u with
    | lit q bs =>
      rw [AlphaUnder, allAlphaUnder_iff] at h
      rw [binders_lit, binders_lit]
      exact List.rel_append (ihp h.1) (forall₂_flatMap h.2 fun a ha _ => ihas a ha)
    | const c => simp [AlphaUnder] at h
    | var w => simp [AlphaUnder] at h
    | lam w s => simp [AlphaUnder] at h

theorem eq_map_rename {as bs : List Term} (h : List.Forall₂ (AlphaUnder φ ρ) as bs)
    (has : ∀ a ∈ as, ∀ b, AlphaUnder φ ρ a b → a.binders.map r = b.binders → b = a.rename r)
    (hbinders : (as.flatMap binders).map r = bs.flatMap binders) : bs = as.map (rename r) := by
  induction h with
  | nil => rfl
  | cons hab _ ih =>
    rw [List.flatMap_cons, List.flatMap_cons, List.map_append] at hbinders
    obtain ⟨ha, hrest⟩ :=
      List.append_inj hbinders (by simpa using hab.forall₂_binders.length_eq)
    rw [List.map_cons, ← has _ (by simp) _ hab ha,
      ← ih (fun a ha => has a (by simp [ha])) hrest]

/-- A function that takes the binders, the free variables and the binders around to the variables
that they belong to renames the term. -/
theorem AlphaUnder.eq_rename (h : AlphaUnder φ ρ t u) (hbinders : t.binders.map r = u.binders)
    (hφ : ∀ p ∈ φ, r p.1 = p.2) (hρ : ∀ p ∈ ρ, r p.1 = p.2) : u = t.rename r := by
  induction t generalizing u ρ with
  | const c =>
    cases u <;> simp only [AlphaUnder] at h
    rw [h, rename_const]
  | var v =>
    cases u <;> simp only [AlphaUnder] at h
    rw [rename_var, h.apply_eq hφ hρ]
  | lam v body ih =>
    cases u with
    | lam w s =>
      rw [AlphaUnder] at h
      rw [binders_lam, binders_lam, List.map_cons, List.cons.injEq] at hbinders
      rw [rename_lam, hbinders.1, ← ih h.2 hbinders.2 (List.forall_mem_cons.2 ⟨hbinders.1, hρ⟩)]
    | const c => simp [AlphaUnder] at h
    | var w => simp [AlphaUnder] at h
    | lit q bs => simp [AlphaUnder] at h
  | lit p as ihp ihas =>
    cases u with
    | lit q bs =>
      rw [AlphaUnder, allAlphaUnder_iff] at h
      rw [binders_lit, binders_lit, List.map_append] at hbinders
      obtain ⟨hp, has⟩ := List.append_inj hbinders (by simpa using h.1.forall₂_binders.length_eq)
      rw [rename_lit, ← ihp h.1 hp hρ,
        ← eq_map_rename h.2 (fun a ha _ hab hbinders => ihas a ha hab hbinders hρ) has]
    | const c => simp [AlphaUnder] at h
    | var w => simp [AlphaUnder] at h
    | lam w s => simp [AlphaUnder] at h

/-- **A term whose variables have identities of their own is a renaming of every alpha-equivalent
term that is hygienic.** -/
theorem AlphaEq.renamesTo (h : AlphaEq t u) (ht : t.Hygienic) (hu : u.DistinctIds) :
    t.RenamesTo u := by
  obtain ⟨hty, h⟩ := h
  have hlength : t.binders.length = u.binders.length := h.forall₂_binders.length_eq
  have hbinders : t.binders.map Var.ty = u.binders.map Var.ty := by
    rw [← List.forall₂_eq_eq_eq, List.forall₂_map_left_iff, List.forall₂_map_right_iff]
    exact h.forall₂_binders
  -- the binders and the free variables of the two terms, side by side
  have hall : (t.binders ++ t.freeVars).map Var.ty = (u.binders ++ u.freeVars).map Var.ty := by
    rw [List.map_append, List.map_append, hbinders, hty]
  have hmatches := matches_zip (hygienic_iff_nodup.1 ht) (hygienic_iff_nodup.1 hu.hygienic) hall
  obtain ⟨r, hr, hmem⟩ := exists_eq_map_of_matches hmatches
    (List.forall₂_iff_zip.2 ⟨by simpa using congrArg List.length hall, fun h => h⟩)
  have hvars : ∀ v ∈ t.vars, v ∈ t.binders ++ t.freeVars := by
    intro v hv
    rw [List.mem_append, mem_freeVars, ← mem_occurrences_iff]
    simpa [vars] using hv
  refine ⟨r, ⟨fun v hv w hw hid => ?_, fun v hv => ?_⟩, ?_⟩
  · have himage : ∀ x ∈ t.vars, r x ∈ u.binders ++ u.freeVars := fun x hx => by
      rw [hr]
      exact List.mem_map_of_mem (hvars x hx)
    have hvw : r v = r w := List.inj_on_of_nodup_map hu (himage v hv) (himage w hw) hid
    exact (hmatches.fst_eq_iff _ (hmem v (hvars v hv)) _ (hmem w (hvars w hw))).2 hvw
  · exact (hmatches.ty_eq _ (hmem v (hvars v hv))).symm
  · rw [List.map_append] at hr
    obtain ⟨hbinders, hfree⟩ := List.append_inj hr (by rw [List.length_map, hlength])
    refine h.eq_rename hbinders.symm (fun p hp => ?_) (by simp)
    rw [freePairs, hfree, ← List.map_prod_left_eq_zip] at hp
    obtain ⟨v, -, rfl⟩ := List.mem_map.1 hp
    rfl

end Renaming

/-! ### Terms with a common renaming -/

section Common

variable {r q : Var → Var} {vs ws : List Var} {φ : Pairing}

/-- The binders around two subterms, if a renaming of the left term and one of the right term have
the same outcome. -/
structure Meets (r q : Var → Var) (vs ws : List Var) (ρ : Pairing) : Prop where
  fst_mem : ∀ p ∈ ρ, p.1 ∈ vs
  snd_mem : ∀ p ∈ ρ, p.2 ∈ ws
  eq : ∀ p ∈ ρ, r p.1 = q p.2

theorem Meets.nil : Meets r q vs ws [] := ⟨by simp, by simp, by simp⟩

theorem Meets.cons {ρ : Pairing} (h : Meets r q vs ws ρ) {v w : Var} (hv : v ∈ vs) (hw : w ∈ ws)
    (hvw : r v = q w) : Meets r q vs ws ((v, w) :: ρ) where
  fst_mem := by simpa using ⟨hv, fun a b hab => h.fst_mem (a, b) hab⟩
  snd_mem := by simpa using ⟨hw, fun a b hab => h.snd_mem (a, b) hab⟩
  eq := by simpa using ⟨hvw, fun a b hab => h.eq (a, b) hab⟩

theorem Meets.of_cons {ρ : Pairing} {p : Var × Var} (h : Meets r q vs ws (p :: ρ)) :
    Meets r q vs ws ρ where
  fst_mem p' hp := h.fst_mem p' (by simp [hp])
  snd_mem p' hp := h.snd_mem p' (by simp [hp])
  eq p' hp := h.eq p' (by simp [hp])

/-- A leaf of the body that is free behind the lambda, or is bound by it. -/
theorem mem_cons_or_of_lam {v : Var} {body : Term} {bs free : List Var}
    (h : ∀ x ∈ (lam v body).freeLeaves, x ∈ bs ∨ x ∈ free) :
    ∀ x ∈ body.freeLeaves, x ∈ v :: bs ∨ x ∈ free := by
  intro x hx
  by_cases hxv : x = v
  · simp [hxv]
  · simpa [hxv] using h x (by simp [hx, hxv])

theorem corresponds_of_eq (hr : IsRenamingOn r vs) (hq : IsRenamingOn q ws)
    {ρ : Pairing} (hρ : Meets r q vs ws ρ) {v w : Var} (hv : v ∈ vs) (hw : w ∈ ws)
    (hvw : r v = q w) (hφ : v ∉ ρ.map Prod.fst → w ∉ ρ.map Prod.snd → (v, w) ∈ φ) :
    Corresponds φ ρ v w := by
  induction ρ with
  | nil => exact hφ (by simp) (by simp)
  | cons p ρ ih =>
    obtain ⟨x, y⟩ := p
    have hx : x ∈ vs := hρ.fst_mem (x, y) (by simp)
    have hy : y ∈ ws := hρ.snd_mem (x, y) (by simp)
    have hxy : r x = q y := hρ.eq (x, y) (by simp)
    have hiff : v = x ↔ w = y := by
      rw [← hr.eq_iff hv hx, ← hq.eq_iff hw hy, hvw, hxy]
    by_cases hvx : v = x
    · exact .inl ⟨hvx, hiff.1 hvx⟩
    · have hwy : w ≠ y := fun h => hvx (hiff.2 h)
      refine .inr ⟨hvx, hwy, ih hρ.of_cons fun h h' => hφ ?_ ?_⟩
      · simpa [hvx] using h
      · simpa [hwy] using h'

/-- `free` and `free'` are the free variables of the whole terms. -/
theorem alphaUnder_of_rename_eq {free free' : List Var} (hr : IsRenamingOn r vs)
    (hq : IsRenamingOn q ws) (hφ : ∀ v ∈ free, ∀ w ∈ free', r v = q w → (v, w) ∈ φ)
    {s t : Term} {ρ : Pairing} (h : s.rename r = t.rename q) (hs : s.occurrences ⊆ vs)
    (ht : t.occurrences ⊆ ws) (hρ : Meets r q vs ws ρ)
    (hs' : ∀ v ∈ s.freeLeaves, v ∈ ρ.map Prod.fst ∨ v ∈ free)
    (ht' : ∀ w ∈ t.freeLeaves, w ∈ ρ.map Prod.snd ∨ w ∈ free') : AlphaUnder φ ρ s t := by
  induction s generalizing t ρ with
  | const c =>
    cases t <;> simp at h
    simpa [AlphaUnder] using h
  | var v =>
    cases t with
    | var w =>
      have hvw : r v = q w := by simpa using h
      rw [AlphaUnder]
      refine corresponds_of_eq hr hq hρ (hs (by simp)) (ht (by simp)) hvw fun hv hw => ?_
      exact hφ v ((hs' v (by simp)).resolve_left hv) w ((ht' w (by simp)).resolve_left hw) hvw
    | const c => simp at h
    | lam w t => simp at h
    | lit p as => simp at h
  | lam v body ih =>
    cases t with
    | lam w t =>
      simp only [rename_lam, lam.injEq] at h
      obtain ⟨hvw, hbody⟩ := h
      have hv : v ∈ vs := hs (by simp)
      have hw : w ∈ ws := ht (by simp)
      rw [AlphaUnder]
      refine ⟨by rw [← hr.keepsTy v hv, ← hq.keepsTy w hw, hvw], ih hbody ?_ ?_
        (hρ.cons hv hw hvw) (mem_cons_or_of_lam hs') (mem_cons_or_of_lam ht')⟩
      · exact fun x hx => hs (by simp [hx])
      · exact fun x hx => ht (by simp [hx])
    | const c => simp at h
    | var w => simp at h
    | lit p as => simp at h
  | lit p as ihp ihas =>
    cases t with
    | lit p' bs =>
      simp only [rename_lit, lit.injEq] at h
      simp only [occurrences_lit, List.append_subset] at hs ht
      simp only [freeLeaves_lit, List.mem_append, List.mem_flatMap] at hs' ht'
      rw [AlphaUnder, allAlphaUnder_iff, List.forall₂_iff_zip]
      refine ⟨ihp h.1 hs.1 ht.1 hρ (fun v hv => hs' v (.inl hv)) fun w hw => ht' w (.inl hw),
        by simpa using congrArg List.length h.2, fun {a b} hab => ?_⟩
      -- arguments at the same place meet as their literals do
      obtain ⟨ha, hb⟩ := List.of_mem_zip hab
      refine ihas a ha (eq_of_mem_zip_of_map_eq h.2 hab) (fun v hv => hs.2 ?_) (fun w hw => ht.2 ?_)
        hρ (fun v hv => hs' v (.inr ⟨a, ha, hv⟩)) fun w hw => ht' w (.inr ⟨b, hb, hw⟩)
      · exact List.mem_flatMap.2 ⟨a, ha, hv⟩
      · exact List.mem_flatMap.2 ⟨b, hb, hw⟩
    | const c => simp at h
    | var w => simp at h
    | lam w t => simp at h

end Common

theorem mem_zip_of_map_eq {r q : Var → Var} {vs ws : List Var} (h : vs.map r = ws.map q)
    (hq : ∀ v ∈ ws, ∀ w ∈ ws, q v = q w → v = w) {v w : Var} (hv : v ∈ vs) (hw : w ∈ ws)
    (hvw : r v = q w) : (v, w) ∈ vs.zip ws := by
  obtain ⟨i, hi, rfl⟩ := List.getElem_of_mem hv
  have hlen : vs.length = ws.length := by simpa using congrArg List.length h
  have hi' : i < ws.length := hlen ▸ hi
  have hri : r vs[i] = q ws[i] := by
    have := congrArg (fun l => l[i]?) h
    simpa [hi, hi'] using this
  have hwi : ws[i] = w := hq _ (List.getElem_mem hi') w hw (hri.symm.trans hvw)
  rw [List.mem_iff_getElem]
  exact ⟨i, by rw [List.length_zip]; omega, by simp [hwi]⟩

/-- **Terms that some renamings make equal are alpha-equivalent.** -/
theorem alphaEq_of_rename_eq {r q : Var → Var} {t u : Term} (hr : IsRenamingOn r t.occurrences)
    (hq : IsRenamingOn q u.occurrences) (h : t.rename r = u.rename q) : AlphaEq t u := by
  have hfree : t.freeVars.map r = u.freeVars.map q := by
    rw [← freeVars_rename hr, ← freeVars_rename hq, h]
  have hmem {t : Term} {v : Var} (hv : v ∈ t.freeVars) : v ∈ t.occurrences :=
    mem_occurrences_iff.2 (.inr (List.mem_eraseDups.1 hv))
  have hzip : ∀ v ∈ t.freeVars, ∀ w ∈ u.freeVars, r v = q w →
      (v, w) ∈ t.freeVars.zip u.freeVars := by
    intro v hv w hw hvw
    refine mem_zip_of_map_eq hfree (fun x hx y hy => ?_) hv hw hvw
    exact (hq.eq_iff (hmem hx) (hmem hy)).1
  refine ⟨?_, alphaUnder_of_rename_eq hr hq hzip h
    (List.Subset.refl _) (List.Subset.refl _) .nil ?_ ?_⟩
  · calc t.freeVars.map Var.ty = (t.freeVars.map r).map Var.ty := by
          rw [List.map_map]
          exact List.map_congr_left fun v hv => (hr.keepsTy v (hmem hv)).symm
      _ = (u.freeVars.map q).map Var.ty := by rw [hfree]
      _ = u.freeVars.map Var.ty := by
          rw [List.map_map]
          exact List.map_congr_left fun v hv => hq.keepsTy v (hmem hv)
  · exact fun v hv => .inr (List.mem_eraseDups.2 hv)
  · exact fun v hv => .inr (List.mem_eraseDups.2 hv)

end Term

/-! ### Printing alpha-equivalent terms -/

/-- Two numberings give one number, or none, to variables that belong together. -/
structure Numbering.Agree (φ ρ : Pairing) (ν μ : Numbering) : Prop where
  next_eq : ν.next = μ.next
  number?_eq : ∀ v w, Corresponds φ ρ v w → ν.number? v = μ.number? w

namespace Numbering.Agree

variable {φ ρ : Pairing} {ν μ : Numbering} {v w : Var}

theorem bind (hφ : φ.Matches) (h : Agree φ ρ ν μ) (hvw : Corresponds φ ρ v w) :
    Agree φ ρ (ν.bind v) (μ.bind w) := by
  refine ⟨by simp [h.next_eq], fun v' w' hvw' => ?_⟩
  simp [hvw'.eq_iff hφ hvw, h.number?_eq v' w' hvw', h.next_eq]

theorem enter (h : Agree φ ρ ν μ) : Agree φ ((v, w) :: ρ) (ν.bind v) (μ.bind w) := by
  refine ⟨by simp [h.next_eq], fun v' w' hvw' => ?_⟩
  rcases hvw' with ⟨rfl, rfl⟩ | ⟨hv, hw, hvw'⟩
  · simp [h.next_eq]
  · simp [hv, hw, h.number?_eq v' w' hvw']

/-- Behind their lambdas the binders are forgotten, unless they belong together with something. -/
theorem leave (h : Agree φ ((v, w) :: ρ) ν μ) (hv : ∀ w', ¬Corresponds φ ρ v w')
    (hw : ∀ v', ¬Corresponds φ ρ v' w) : Agree φ ρ ν μ := by
  refine ⟨h.next_eq, fun v' w' hvw' => h.number?_eq v' w' (.inr ⟨?_, ?_, hvw'⟩)⟩
  · rintro rfl
    exact hv w' hvw'
  · rintro rfl
    exact hw v' hvw'

end Numbering.Agree

namespace Term

/-- The lambdas of a term bind different variables, all of them new to the correspondence. -/
structure FreshBinders (new : Var → Prop) (bs : List Var) : Prop where
  nodup : bs.Nodup
  new : ∀ x ∈ bs, new x

theorem freshBinders_append {new : Var → Prop} {bs cs : List Var}
    (h : FreshBinders new (bs ++ cs)) : FreshBinders new bs ∧ FreshBinders new cs := by
  have hnodup := List.nodup_append.1 h.nodup
  exact ⟨⟨hnodup.1, fun x hx => h.new x (by simp [hx])⟩,
    ⟨hnodup.2.1, fun x hx => h.new x (by simp [hx])⟩⟩

theorem FreshBinders.of_mem {new : Var → Prop} {ts : List Term}
    (h : FreshBinders new (ts.flatMap binders)) {t : Term} (ht : t ∈ ts) :
    FreshBinders new t.binders where
  nodup := (List.nodup_flatMap.1 h.nodup).1 t ht
  new x hx := h.new x (List.mem_flatMap.2 ⟨t, ht, hx⟩)

variable {φ : Pairing}

/-- `x` belongs together with nothing on the right. -/
def NewLeft (φ ρ : Pairing) (x : Var) : Prop := ∀ w, ¬Corresponds φ ρ x w

/-- `y` belongs together with nothing on the left. -/
def NewRight (φ ρ : Pairing) (y : Var) : Prop := ∀ v, ¬Corresponds φ ρ v y

theorem FreshBinders.bodyLeft {ρ : Pairing} {x y : Var} {bs : List Var}
    (h : FreshBinders (NewLeft φ ρ) (x :: bs)) : FreshBinders (NewLeft φ ((x, y) :: ρ)) bs := by
  obtain ⟨hx, hnodup⟩ := List.nodup_cons.1 h.nodup
  refine ⟨hnodup, fun z hz w hzw => ?_⟩
  rcases hzw with ⟨rfl, -⟩ | ⟨-, -, hzw⟩
  · exact hx hz
  · exact h.new z (by simp [hz]) w hzw

theorem FreshBinders.bodyRight {ρ : Pairing} {x y : Var} {bs : List Var}
    (h : FreshBinders (NewRight φ ρ) (y :: bs)) : FreshBinders (NewRight φ ((x, y) :: ρ)) bs := by
  obtain ⟨hy, hnodup⟩ := List.nodup_cons.1 h.nodup
  refine ⟨hnodup, fun z hz v hvz => ?_⟩
  rcases hvz with ⟨-, rfl⟩ | ⟨-, -, hvz⟩
  · exact hy hz
  · exact h.new z (by simp [hz]) v hvz

theorem writtenAlike_of_alphaUnder (hφ : φ.Matches) {s t : Term} {ρ : Pairing}
    (h : AlphaUnder φ ρ s t) (hρ : ∀ p ∈ ρ, p.1.ty = p.2.ty)
    (hs : FreshBinders (NewLeft φ ρ) s.binders) (ht : FreshBinders (NewRight φ ρ) t.binders) :
    WrittenAlike (Numbering.Agree φ ρ) s t := by
  induction s generalizing t ρ with
  | const c =>
    intro ν μ hag
    cases t <;> simp only [AlphaUnder] at h
    exact ⟨by simp [toSexpFrom, h], by simpa [toSexpFrom] using hag⟩
  | var v =>
    intro ν μ hag
    cases t with
    | var w =>
      rw [AlphaUnder] at h
      rw [toSexpFrom, toSexpFrom, hag.number?_eq v w h]
      cases μ.number? w with
      | some n => exact ⟨rfl, hag⟩
      | none => exact ⟨by simp [Var.declaration, h.ty_eq hφ hρ, hag.next_eq], hag.bind hφ h⟩
    | const c => simp [AlphaUnder] at h
    | lam w t => simp [AlphaUnder] at h
    | lit p as => simp [AlphaUnder] at h
  | lam v body ih =>
    intro ν μ hag
    cases t with
    | lam w t =>
      rw [AlphaUnder] at h
      rw [binders_lam] at hs ht
      obtain ⟨hsexp, hag'⟩ := ih h.2 (by simpa using ⟨h.1, fun a b hab => hρ (a, b) hab⟩)
        hs.bodyLeft ht.bodyRight hag.enter
      rw [toSexpFrom_lam, toSexpFrom_lam]
      -- behind the lambda nothing belongs together with its binder
      exact ⟨by simp [hsexp, Var.declaration, h.1, hag.next_eq],
        hag'.leave (hs.new v (by simp)) (ht.new w (by simp))⟩
    | const c => simp [AlphaUnder] at h
    | var w => simp [AlphaUnder] at h
    | lit p as => simp [AlphaUnder] at h
  | lit p as ihp ihas =>
    cases t with
    | lit q bs =>
      rw [AlphaUnder, allAlphaUnder_iff, List.forall₂_iff_zip] at h
      obtain ⟨hpq, hlength, hasbs⟩ := h
      rw [binders_lit] at hs ht
      obtain ⟨hsp, hsas⟩ := freshBinders_append hs
      obtain ⟨htq, htbs⟩ := freshBinders_append ht
      refine (ihp hpq hρ hsp htq).lit ?_
      rw [List.forall₂_iff_zip]
      refine ⟨hlength, fun {a b} hab => ?_⟩
      obtain ⟨ha, hb⟩ := List.of_mem_zip hab
      exact ihas a ha (hasbs hab) hρ (hsas.of_mem ha) (htbs.of_mem hb)
    | const c => simp [AlphaUnder] at h
    | var w => simp [AlphaUnder] at h
    | lam w t => simp [AlphaUnder] at h

/-- **Hygienic terms that are alpha-equivalent are written in the same way.** -/
theorem AlphaEq.render_eq {t u : Term} (h : AlphaEq t u) (ht : t.Hygienic) (hu : u.Hygienic) :
    t.render = u.render := by
  obtain ⟨hty, h⟩ := h
  have hleft : FreshBinders (NewLeft (freePairs t u) []) t.binders :=
    ⟨ht.1, fun x hx w hw => ht.2 x hx (mem_freeVars.1 (List.of_mem_zip hw).1)⟩
  have hright : FreshBinders (NewRight (freePairs t u) []) u.binders :=
    ⟨hu.1, fun x hx v hv => hu.2 x hx (mem_freeVars.1 (List.of_mem_zip hv).2)⟩
  have hempty : Numbering.Agree (freePairs t u) [] .empty .empty := ⟨rfl, fun _ _ _ => rfl⟩
  have halike : WrittenAlike (Numbering.Agree (freePairs t u) []) t u :=
    writtenAlike_of_alphaUnder (matches_freePairs hty) h (by simp) hleft hright
  rw [render, render, toSexp, toSexp, (halike hempty).1]

end Term

end LogicalForms
