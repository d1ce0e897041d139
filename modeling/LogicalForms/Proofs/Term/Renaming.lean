import LogicalForms.Proofs.Term.Hygiene
import LogicalForms.Term.Printer
import Mathlib.Data.List.Forall2
import Mathlib.Data.Set.Function

/-!
# Renaming

`Term.rename` applies a function to every variable of a term, in binders and in leaves.  A function
that gives some variables identities of their own and keeps their types is a renaming of them
(`IsRenamingOn`).  A function that is one-to-one on the variables of a term and keeps their types
changes nothing but identities, so the term is written as before (`Term.render_rename`).
-/

namespace LogicalForms

/-- The function keeps the variables apart and keeps their types. -/
structure IsRenamingOn (r : Var → Var) (vs : List Var) : Prop where
  injective : ∀ v ∈ vs, ∀ w ∈ vs, (r v).id = (r w).id → v = w
  keepsTy : ∀ v ∈ vs, (r v).ty = v.ty

namespace IsRenamingOn

variable {r : Var → Var} {vs ws : List Var}

theorem mono (h : IsRenamingOn r vs) (hsub : ws ⊆ vs) : IsRenamingOn r ws :=
  ⟨fun v hv w hw => h.injective v (hsub hv) w (hsub hw), fun v hv => h.keepsTy v (hsub hv)⟩

theorem injOn (h : IsRenamingOn r vs) : Set.InjOn r {v | v ∈ vs} :=
  fun v hv w hw heq => h.injective v hv w hw (congrArg Var.id heq)

theorem eq_iff (h : IsRenamingOn r vs) {v w : Var} (hv : v ∈ vs) (hw : w ∈ vs) :
    r v = r w ↔ v = w := h.injOn.eq_iff hv hw

end IsRenamingOn

namespace Term

mutual

/-- Applies a function to every variable of a term. -/
def rename (r : Var → Var) : Term → Term
  | .const c => .const c
  | .var v => .var (r v)
  | .lam v body => .lam (r v) (body.rename r)
  | .lit p as => .lit (p.rename r) (renameAll r as)

/-- Applies a function to every variable of the terms. -/
def renameAll (r : Var → Var) : List Term → List Term
  | [] => []
  | t :: ts => t.rename r :: renameAll r ts

end

/-- `u` is `t` with other identities: it has the same shape and the same constants, and its
variables correspond one-to-one to those of `t`, type for type. -/
def RenamesTo (t u : Term) : Prop := ∃ r, IsRenamingOn r t.vars ∧ u = t.rename r

theorem renameAll_eq (r : Var → Var) (ts : List Term) : renameAll r ts = ts.map (rename r) := by
  induction ts with
  | nil => rfl
  | cons t ts ih => simp [renameAll, ih]

@[simp] theorem rename_const (r : Var → Var) (c : Constant) : (const c).rename r = const c := rfl

@[simp] theorem rename_var (r : Var → Var) (v : Var) : (var v).rename r = var (r v) := rfl

@[simp] theorem rename_lam (r : Var → Var) (v : Var) (t : Term) :
    (lam v t).rename r = lam (r v) (t.rename r) := rfl

@[simp] theorem rename_lit (r : Var → Var) (p : Term) (as : List Term) :
    (lit p as).rename r = lit (p.rename r) (as.map (rename r)) := by
  show lit (p.rename r) (renameAll r as) = _
  rw [renameAll_eq]

theorem freeLeaves_rename {r : Var → Var} {t : Term} (h : IsRenamingOn r t.occurrences) :
    (t.rename r).freeLeaves = t.freeLeaves.map r := by
  induction t with
  | const c => simp
  | var v => simp
  | lam v body ih =>
    have hbody : IsRenamingOn r body.occurrences := h.mono (by simp)
    rw [rename_lam, freeLeaves_lam, freeLeaves_lam, ih hbody, List.filter_map]
    congr 1
    refine List.filter_congr fun w hw => ?_
    have hiff := h.eq_iff (v := w) (w := v) (by simp [mem_occurrences_iff, hw]) (by simp)
    simp [hiff]
  | lit p as ihp ihas =>
    have hpart : ∀ u ∈ p :: as, IsRenamingOn r u.occurrences := fun u hu =>
      h.mono (occurrences_subset_of_lit (List.Subset.refl _) hu)
    rw [rename_lit, freeLeaves_lit, freeLeaves_lit, ihp (hpart p (by simp)), List.map_append,
      List.flatMap_map, List.map_flatMap]
    congr 1
    exact List.flatMap_congr fun a ha => ihas a ha (hpart a (by simp [ha]))

theorem freeVars_rename {r : Var → Var} {t : Term} (h : IsRenamingOn r t.occurrences) :
    (t.rename r).freeVars = t.freeVars.map r := by
  have hmem : ∀ v ∈ t.freeLeaves, v ∈ t.occurrences := fun v hv => mem_occurrences_iff.2 (.inr hv)
  rw [freeVars, freeVars, freeLeaves_rename h,
    eraseDups_map fun v hv w hw => (h.eq_iff (hmem v hv) (hmem w hw)).1]

end Term

/-! ### Printing -/

@[simp] theorem Numbering.next_bind (ν : Numbering) (v : Var) : (ν.bind v).next = ν.next + 1 := rfl

@[simp] theorem Numbering.number?_bind (ν : Numbering) (v w : Var) :
    (ν.bind v).number? w = if w = v then some ν.next else ν.number? w := by
  simp only [number?, bind, List.lookup_cons]
  by_cases h : w = v
  · simp [h]
  · rw [if_neg h, beq_false_of_ne h]

/-- A variable and its renaming have the same number, or none. -/
structure Numbering.Renamed (r : Var → Var) (vs : List Var) (ν μ : Numbering) : Prop where
  next_eq : μ.next = ν.next
  number?_eq : ∀ v ∈ vs, μ.number? (r v) = ν.number? v

theorem Numbering.Renamed.bind {r : Var → Var} {vs : List Var} {ν μ : Numbering}
    (hr : Set.InjOn r {v | v ∈ vs}) (h : Numbering.Renamed r vs ν μ) {v : Var} (hv : v ∈ vs) :
    Numbering.Renamed r vs (ν.bind v) (μ.bind (r v)) := by
  refine ⟨by simp [h.next_eq], fun w hw => ?_⟩
  simp [hr.eq_iff hw hv, h.number?_eq w hw, h.next_eq]

namespace Term

theorem allToSexpFrom_cons (ν : Numbering) (t : Term) (ts : List Term) :
    allToSexpFrom ν (t :: ts) =
      ((t.toSexpFrom ν).1 :: (allToSexpFrom (t.toSexpFrom ν).2 ts).1,
        (allToSexpFrom (t.toSexpFrom ν).2 ts).2) := rfl

theorem toSexpFrom_lam (ν : Numbering) (v : Var) (t : Term) :
    (lam v t).toSexpFrom ν =
      (.list [.atom "lambda", .atom (v.declaration ν.next), (t.toSexpFrom (ν.bind v)).1],
        (t.toSexpFrom (ν.bind v)).2) := rfl

theorem toSexpFrom_lit (ν : Numbering) (p : Term) (as : List Term) :
    (lit p as).toSexpFrom ν =
      (.list ((p.toSexpFrom ν).1 :: (allToSexpFrom (p.toSexpFrom ν).2 as).1),
        (allToSexpFrom (p.toSexpFrom ν).2 as).2) := rfl

/-- From related numberings the terms are written in the same way, and the numberings after them are
related again. -/
def WrittenAlike (R : Numbering → Numbering → Prop) (t u : Term) : Prop :=
  ∀ ⦃ν μ : Numbering⦄, R ν μ →
    (t.toSexpFrom ν).1 = (u.toSexpFrom μ).1 ∧ R (t.toSexpFrom ν).2 (u.toSexpFrom μ).2

section WrittenAlike

variable {R : Numbering → Numbering → Prop} {p q : Term} {as bs : List Term}

theorem allToSexpFrom_eq_of_forall₂ (h : List.Forall₂ (WrittenAlike R) as bs) {ν μ : Numbering}
    (hR : R ν μ) :
    (allToSexpFrom ν as).1 = (allToSexpFrom μ bs).1 ∧
      R (allToSexpFrom ν as).2 (allToSexpFrom μ bs).2 := by
  induction h generalizing ν μ with
  | nil => exact ⟨rfl, hR⟩
  | cons hab _ ih =>
    -- each term starts from the numbering that the terms before it leave
    obtain ⟨hsexp, hR'⟩ := hab hR
    obtain ⟨hrest, hR''⟩ := ih hR'
    rw [allToSexpFrom_cons, allToSexpFrom_cons]
    exact ⟨by rw [hsexp, hrest], hR''⟩

theorem WrittenAlike.lit (hp : WrittenAlike R p q) (has : List.Forall₂ (WrittenAlike R) as bs) :
    WrittenAlike R (lit p as) (lit q bs) := by
  intro ν μ hR
  obtain ⟨hsexp, hR'⟩ := hp hR
  obtain ⟨hrest, hR''⟩ := allToSexpFrom_eq_of_forall₂ has hR'
  rw [toSexpFrom_lit, toSexpFrom_lit]
  exact ⟨by rw [hsexp, hrest], hR''⟩

end WrittenAlike

theorem writtenAlike_rename {r : Var → Var} {vs : List Var} (hr : Set.InjOn r {v | v ∈ vs})
    (hty : ∀ v ∈ vs, (r v).ty = v.ty) {t : Term} (ht : t.occurrences ⊆ vs) :
    WrittenAlike (Numbering.Renamed r vs) t (t.rename r) := by
  induction t with
  | const c =>
    intro ν μ h
    simpa [toSexpFrom] using h
  | var v =>
    intro ν μ h
    have hv : v ∈ vs := ht (by simp)
    rw [rename_var, toSexpFrom, toSexpFrom, h.number?_eq v hv]
    cases ν.number? v with
    | some n => exact ⟨rfl, h⟩
    | none => exact ⟨by simp [Var.declaration, hty v hv, h.next_eq], h.bind hr hv⟩
  | lam v body ih =>
    intro ν μ h
    have hv : v ∈ vs := ht (by simp)
    have hbody : body.occurrences ⊆ vs := fun w hw => ht (by simp [hw])
    obtain ⟨hsexp, hnum⟩ := ih hbody (h.bind hr hv)
    rw [rename_lam, toSexpFrom_lam, toSexpFrom_lam]
    exact ⟨by simp [hsexp, Var.declaration, hty v hv, h.next_eq], hnum⟩
  | lit p as ihp ihas =>
    rw [rename_lit]
    refine (ihp (occurrences_subset_of_lit ht (by simp))).lit ?_
    rw [List.forall₂_map_right_iff, List.forall₂_same]
    exact fun a ha => ihas a ha (occurrences_subset_of_lit ht (by simp [ha]))

/-- **A term and its renaming are written in the same way.** -/
theorem render_rename {r : Var → Var} {t : Term} (hr : Set.InjOn r {v | v ∈ t.occurrences})
    (hty : ∀ v ∈ t.occurrences, (r v).ty = v.ty) : (t.rename r).render = t.render := by
  have hempty : Numbering.Renamed r t.occurrences .empty .empty := ⟨rfl, fun _ _ => rfl⟩
  rw [render, render, toSexp, toSexp, (writtenAlike_rename hr hty (List.Subset.refl _) hempty).1]

end Term

end LogicalForms
