import LogicalForms.Proofs.List.FirstPlaces
import LogicalForms.Term.Simplify
import Mathlib.Data.List.Nodup
import Mathlib.Data.List.Pairwise

/-!
# Binders and free variables

* `Term.binders` and `Term.freeLeaves` are the variables that the lambdas of a term bind, and the
  leaves that no lambda around them binds, both in order and with repetitions; `Term.freeVars` are
  the free variables in order of first appearance.
* A term is hygienic (`Term.Hygienic`) when no two lambdas bind the same variable and no bound
  variable is free anywhere else.
* The parts of a hygienic term are hygienic, and a literal mentions a variable that one of its
  members binds in no other member (`Term.Hygienic.mentions_of_lit`).
* Simplification keeps the free leaves (`Term.freeLeaves_simplify`) and hygiene
  (`Term.Hygienic.simplify`).
-/

namespace LogicalForms

namespace Term

mutual

/-- The variables bound by the lambdas of a term, in order. -/
def binders : Term → List Var
  | .const _ => []
  | .var _ => []
  | .lam v body => v :: body.binders
  | .lit p as => p.binders ++ allBinders as

/-- The variables bound by the lambdas of the terms, in order. -/
def allBinders : List Term → List Var
  | [] => []
  | t :: ts => t.binders ++ allBinders ts

end

mutual

/-- The leaves that refer to no lambda around them, in order. -/
def freeLeaves : Term → List Var
  | .const _ => []
  | .var v => [v]
  | .lam v body => body.freeLeaves.filter (· ≠ v)
  | .lit p as => p.freeLeaves ++ allFreeLeaves as

/-- The leaves of the terms that refer to no lambda around them, in order. -/
def allFreeLeaves : List Term → List Var
  | [] => []
  | t :: ts => t.freeLeaves ++ allFreeLeaves ts

end

/-- The free variables of a term in order of first appearance. -/
def freeVars (t : Term) : List Var := t.freeLeaves.eraseDups

/-- No two lambdas bind the same variable, and no bound variable has a free leaf. -/
def Hygienic (t : Term) : Prop := t.binders.Nodup ∧ ∀ v ∈ t.binders, v ∉ t.freeLeaves

theorem allBinders_eq (ts : List Term) : allBinders ts = ts.flatMap binders := by
  induction ts with
  | nil => rfl
  | cons t ts ih => simp [allBinders, ih]

theorem allFreeLeaves_eq (ts : List Term) : allFreeLeaves ts = ts.flatMap freeLeaves := by
  induction ts with
  | nil => rfl
  | cons t ts ih => simp [allFreeLeaves, ih]

theorem allOccurrences_eq (ts : List Term) : allOccurrences ts = ts.flatMap occurrences := by
  induction ts with
  | nil => rfl
  | cons t ts ih => simp [allOccurrences, ih]

@[simp] theorem binders_const (c : Constant) : (const c).binders = [] := rfl

@[simp] theorem binders_var (v : Var) : (var v).binders = [] := rfl

@[simp] theorem binders_lam (v : Var) (t : Term) : (lam v t).binders = v :: t.binders := rfl

@[simp] theorem binders_lit (p : Term) (as : List Term) :
    (lit p as).binders = p.binders ++ as.flatMap binders := by
  show p.binders ++ allBinders as = _
  rw [allBinders_eq]

@[simp] theorem freeLeaves_const (c : Constant) : (const c).freeLeaves = [] := rfl

@[simp] theorem freeLeaves_var (v : Var) : (var v).freeLeaves = [v] := rfl

@[simp] theorem freeLeaves_lam (v : Var) (t : Term) :
    (lam v t).freeLeaves = t.freeLeaves.filter (· ≠ v) := rfl

@[simp] theorem freeLeaves_lit (p : Term) (as : List Term) :
    (lit p as).freeLeaves = p.freeLeaves ++ as.flatMap freeLeaves := by
  show p.freeLeaves ++ allFreeLeaves as = _
  rw [allFreeLeaves_eq]

@[simp] theorem occurrences_const (c : Constant) : (const c).occurrences = [] := rfl

@[simp] theorem occurrences_var (v : Var) : (var v).occurrences = [v] := rfl

@[simp] theorem occurrences_lam (v : Var) (t : Term) :
    (lam v t).occurrences = v :: t.occurrences := rfl

@[simp] theorem occurrences_lit (p : Term) (as : List Term) :
    (lit p as).occurrences = p.occurrences ++ as.flatMap occurrences := by
  show p.occurrences ++ allOccurrences as = _
  rw [allOccurrences_eq]

theorem occurrences_subset_of_lit {p t : Term} {as : List Term} {vs : List Var}
    (h : (lit p as).occurrences ⊆ vs) (ht : t ∈ p :: as) : t.occurrences ⊆ vs := by
  rw [occurrences_lit, ← List.flatMap_cons] at h
  exact fun v hv => h (List.mem_flatMap.2 ⟨t, ht, hv⟩)

/-- A variable occurs in a binder or in a free leaf, or in a leaf that a binder binds. -/
theorem mem_occurrences_iff {t : Term} {v : Var} :
    v ∈ t.occurrences ↔ v ∈ t.binders ∨ v ∈ t.freeLeaves := by
  induction t with
  | const c => simp
  | var w => simp
  | lam w body ih =>
    by_cases hvw : v = w
    · simp [hvw]
    · simp [ih, hvw]
  | lit p as ihp ihas =>
    simp only [occurrences_lit, binders_lit, freeLeaves_lit, List.mem_append, List.mem_flatMap, ihp]
    constructor
    · rintro ((h | h) | ⟨a, ha, h⟩)
      · exact .inl (.inl h)
      · exact .inr (.inl h)
      · rcases (ihas a ha).1 h with h | h
        · exact .inl (.inr ⟨a, ha, h⟩)
        · exact .inr (.inr ⟨a, ha, h⟩)
    · rintro ((h | ⟨a, ha, h⟩) | (h | ⟨a, ha, h⟩))
      · exact .inl (.inl h)
      · exact .inr ⟨a, ha, (ihas a ha).2 (.inl h)⟩
      · exact .inl (.inr h)
      · exact .inr ⟨a, ha, (ihas a ha).2 (.inr h)⟩

theorem nodup_freeVars (t : Term) : t.freeVars.Nodup := nodup_eraseDups _

theorem mem_freeVars {t : Term} {v : Var} : v ∈ t.freeVars ↔ v ∈ t.freeLeaves :=
  List.mem_eraseDups

theorem hygienic_iff_nodup {t : Term} : t.Hygienic ↔ (t.binders ++ t.freeVars).Nodup := by
  rw [List.nodup_append]
  constructor
  · rintro ⟨hbinders, hfree⟩
    refine ⟨hbinders, nodup_freeVars t, fun v hv w hw hvw => ?_⟩
    exact hfree v hv (mem_freeVars.1 (hvw ▸ hw))
  · rintro ⟨hbinders, -, hfree⟩
    exact ⟨hbinders, fun v hv hleaf => hfree v hv v (mem_freeVars.2 hleaf) rfl⟩

/-- The binders and the free variables of the term have identities of their own. -/
def DistinctIds (t : Term) : Prop := ((t.binders ++ t.freeVars).map Var.id).Nodup

theorem DistinctIds.hygienic {t : Term} (h : t.DistinctIds) : t.Hygienic :=
  hygienic_iff_nodup.2 (List.Nodup.of_map _ h)

theorem mentions_of_mem_freeLeaves {t : Term} {v : Var} (h : v ∈ t.freeLeaves) :
    t.mentions v = true := by
  induction t with
  | const c => simp at h
  | var w => simpa [mentions, eq_comm] using h
  | lam w body ih =>
    rw [mentions]
    exact ih (by simp at h; exact h.1)
  | lit p as ihp ihas =>
    simp only [freeLeaves_lit, List.mem_append, List.mem_flatMap] at h
    rw [mentions, anyMentions_eq, Bool.or_eq_true, List.any_eq_true]
    rcases h with h | ⟨a, ha, h⟩
    · exact .inl (ihp h)
    · exact .inr ⟨a, ha, ihas a ha h⟩

theorem mem_occurrences_of_mentions {t : Term} {v : Var} (h : t.mentions v = true) :
    v ∈ t.occurrences := by
  induction t with
  | const c => cases h
  | var w => simpa [eq_comm] using h
  | lam w body ih => exact List.mem_cons_of_mem _ (ih h)
  | lit p as ihp ihas =>
    rw [mentions_lit, Bool.or_eq_true, List.any_eq_true] at h
    rw [occurrences_lit, List.mem_append, List.mem_flatMap]
    exact h.imp ihp fun ⟨a, ha, h⟩ => ⟨a, ha, ihas a ha h⟩

theorem mem_freeLeaves_of_mentions {t : Term} {v : Var} (hv : v ∉ t.binders)
    (h : t.mentions v = true) : v ∈ t.freeLeaves :=
  (mem_occurrences_iff.1 (mem_occurrences_of_mentions h)).resolve_left hv

/-! ### Parts of hygienic terms -/

theorem Hygienic.of_lam {v : Var} {body : Term} (h : (lam v body).Hygienic) : body.Hygienic := by
  obtain ⟨hnodup, hfree⟩ := h
  rw [binders_lam, List.nodup_cons] at hnodup
  refine ⟨hnodup.2, fun w hw hleaf => hfree w (by simp [hw]) ?_⟩
  have hne : w ≠ v := by
    rintro rfl
    exact hnodup.1 hw
  simp [hleaf, hne]

section Lit

variable {p t : Term} {as : List Term} {v : Var}

theorem Hygienic.of_lit (h : (lit p as).Hygienic) (ht : t ∈ p :: as) : t.Hygienic := by
  obtain ⟨hnodup, hfree⟩ := h
  rw [binders_lit, ← List.flatMap_cons] at hnodup hfree
  rw [freeLeaves_lit, ← List.flatMap_cons] at hfree
  exact ⟨(List.nodup_flatMap.1 hnodup).1 t ht, fun v hv hleaf =>
    hfree v (List.mem_flatMap.2 ⟨t, ht, hv⟩) (List.mem_flatMap.2 ⟨t, ht, hleaf⟩)⟩

/-- A variable that one member of a literal binds is mentioned in no other member. -/
theorem Hygienic.mentions_of_lit (h : (lit p as).Hygienic) (ht : t ∈ p :: as) (hv : v ∈ t.binders)
    (hmentions : (lit p as).mentions v = true) : t.mentions v = true := by
  obtain ⟨hnodup, hfree⟩ := h
  rw [binders_lit, ← List.flatMap_cons] at hnodup hfree
  rw [freeLeaves_lit, ← List.flatMap_cons] at hfree
  obtain ⟨u, hu, hmentions⟩ : ∃ u ∈ p :: as, u.mentions v = true := by
    simpa using hmentions
  by_cases hbinder : v ∈ u.binders
  · -- the member that binds the variable is no other one
    have hsymm : Std.Symm (Function.onFun List.Disjoint binders) :=
      ⟨fun _ _ h v hv hv' => h hv' hv⟩
    have hdisjoint := (List.nodup_flatMap.1 hnodup).2
    by_contra hnot
    have hne : u ≠ t := by
      rintro rfl
      exact hnot hmentions
    exact hdisjoint.forall hu ht hne hbinder hv
  · exact absurd (List.mem_flatMap.2 ⟨u, hu, mem_freeLeaves_of_mentions hbinder hmentions⟩)
      (hfree v (List.mem_flatMap.2 ⟨t, ht, hv⟩))

end Lit

/-! ### Simplification -/

@[simp] theorem freeLeaves_simplify (strip : Bool) (t : Term) :
    (t.simplify strip).freeLeaves = t.freeLeaves := by
  induction t with
  | const c => simp
  | var v => simp
  | lam v body ih =>
    rw [simplify_lam]
    split_ifs with h
    · -- the dropped binder had no leaf, so it took no leaf out of the free ones
      have hv : v ∉ (body.simplify strip).freeLeaves := fun hmem => by
        simp [mentions_of_mem_freeLeaves hmem] at h
      rw [freeLeaves_lam, ← ih, eq_comm, List.filter_eq_self]
      intro w hw
      have hne : w ≠ v := by
        rintro rfl
        exact hv hw
      simpa using hne
    · simp [ih]
  | lit p as ihp ihas =>
    rw [simplify_lit, freeLeaves_lit, freeLeaves_lit, ihp, List.flatMap_map]
    congr 1
    exact List.flatMap_congr fun a ha => ihas a ha

theorem binders_simplify_sublist (strip : Bool) (t : Term) :
    (t.simplify strip).binders.Sublist t.binders := by
  induction t with
  | const c => simp
  | var v => simp
  | lam v body ih =>
    rw [simplify_lam]
    split_ifs
    · exact ih.trans (by simp)
    · simpa using ih
  | lit p as ihp ihas =>
    rw [simplify_lit, binders_lit, binders_lit]
    refine ihp.append ?_
    clear ihp
    induction as with
    | nil => simp
    | cons a as ih =>
      exact (ihas a (by simp)).append (ih fun b hb => ihas b (by simp [hb]))

theorem occurrences_simplify_subset (strip : Bool) (t : Term) :
    (t.simplify strip).occurrences ⊆ t.occurrences := by
  intro v hv
  rw [mem_occurrences_iff, freeLeaves_simplify] at hv
  exact mem_occurrences_iff.2 (hv.imp_left fun h => (binders_simplify_sublist strip t).subset h)

/-- **Simplification keeps a term hygienic.** -/
theorem Hygienic.simplify {t : Term} (h : t.Hygienic) (strip : Bool) :
    (t.simplify strip).Hygienic := by
  have hsub := binders_simplify_sublist strip t
  refine ⟨hsub.nodup h.1, fun v hv => ?_⟩
  rw [freeLeaves_simplify]
  exact h.2 v (hsub.subset hv)

end Term

end LogicalForms
