import LogicalForms.Proofs.Term.Constants
import LogicalForms.Proofs.Term.Renaming
import LogicalForms.Proofs.Term.Vacuous

/-!
# Identities of variables

A function that is one-to-one on the variables of a term commutes with everything that compares
variables: with the test for a mention (`Term.mentions_rename`), with the pass for vacuous variables
(`Term.vacuous_rename`) and with simplification (`Term.simplify_rename`).

What is observed of a term is anonymous (`Term.Anonymous`) if such a function does not change it, as
long as it keeps the types of the variables.  The text of a term and the list of its constants are
anonymous, and so is what is observed of the simplified term.
-/

namespace LogicalForms.Term

variable {r : Var → Var} {vs : List Var} {t : Term} {v : Var}

theorem mem_map_iff_of_injOn {s : List Var} (hr : Set.InjOn r {v | v ∈ vs}) (hs : s ⊆ vs)
    (hv : v ∈ vs) : r v ∈ s.map r ↔ v ∈ s := by
  rw [List.mem_map]
  exact hr.mem_image_iff (fun _ hw => hs hw) hv

@[simp] theorem constants_rename (r : Var → Var) (t : Term) :
    (t.rename r).constants = t.constants := by
  induction t with
  | const c => rfl
  | var v => rfl
  | lam v body ih => exact ih
  | lit p as ihp ihas =>
    rw [rename_lit, constants_lit, constants_lit, ihp, List.flatMap_map]
    exact congrArg _ (List.flatMap_congr ihas)

/-! ### Mentions and simplification -/

theorem mentions_rename (hr : Set.InjOn r {v | v ∈ vs}) (ht : t.occurrences ⊆ vs) (hv : v ∈ vs) :
    (t.rename r).mentions (r v) = t.mentions v := by
  induction t with
  | const c => rfl
  | var w =>
    have hw : w ∈ vs := ht (by simp)
    rw [rename_var, mentions_var, mentions_var]
    exact decide_eq_decide.2 (hr.eq_iff hw hv)
  | lam w body ih => exact ih fun x hx => ht (by simp [hx])
  | lit p as ihp ihas =>
    have has : ∀ a ∈ as, (a.rename r).mentions (r v) = a.mentions v := fun a ha =>
      ihas a ha (occurrences_subset_of_lit ht (by simp [ha]))
    rw [rename_lit, mentions_lit, mentions_lit, ihp (occurrences_subset_of_lit ht (by simp)),
      List.any_map, List.any_eq, List.any_eq]
    refine congrArg _ (decide_eq_decide.2 (exists_congr fun a => and_congr_right fun ha => ?_))
    rw [Function.comp_apply, has a ha]

/-- **Simplification and renaming commute.** -/
theorem simplify_rename (hr : Set.InjOn r {v | v ∈ vs}) (ht : t.occurrences ⊆ vs) (strip : Bool) :
    (t.rename r).simplify strip = (t.simplify strip).rename r := by
  induction t with
  | const c => rfl
  | var v => rfl
  | lam v body ih =>
    have hv : v ∈ vs := ht (by simp)
    have hbody : body.occurrences ⊆ vs := fun w hw => ht (by simp [hw])
    -- whether the lambda is unused is decided in the same way before and after the renaming
    rw [rename_lam, simplify_lam, simplify_lam, mentions_simplify, mentions_simplify,
      mentions_rename hr hbody hv, ih hbody]
    split_ifs
    · rfl
    · rfl
  | lit p as ihp ihas =>
    rw [rename_lit, simplify_lit, simplify_lit, rename_lit,
      ihp (occurrences_subset_of_lit ht (by simp)), List.map_map, List.map_map]
    refine congrArg _ (List.map_congr_left fun a ha => ?_)
    exact ihas a ha (occurrences_subset_of_lit ht (by simp [ha]))

/-! ### Vacuous variables -/

namespace Visit

/-- The variable that is met. -/
def var : Visit → Var
  | .binder v => v
  | .leaf v => v

/-- Applies a function to the variable that is met. -/
def rename (r : Var → Var) : Visit → Visit
  | .binder v => .binder (r v)
  | .leaf v => .leaf (r v)

theorem step_subset {s : List Var} {x : Visit} (hs : s ⊆ vs) (hx : x.var ∈ vs) :
    step s x ⊆ vs := by
  intro v hv
  cases x with
  | binder w =>
    rcases mem_step_binder.1 hv with rfl | hv
    · exact hx
    · exact hs hv
  | leaf w => exact hs (mem_step_leaf.1 hv).1

theorem step_rename {s : List Var} {x : Visit} (hr : Set.InjOn r {v | v ∈ vs}) (hs : s ⊆ vs)
    (hx : x.var ∈ vs) : step (s.map r) (x.rename r) = (step s x).map r := by
  cases x with
  | binder v =>
    rw [rename, step, step, apply_ite (List.map r)]
    exact if_congr (mem_map_iff_of_injOn hr hs hx) rfl rfl
  | leaf v =>
    rw [rename, step, step, List.filter_map]
    refine congrArg _ (List.filter_congr fun w hw => ?_)
    exact decide_eq_decide.2 (not_congr (hr.eq_iff (hs hw) hx))

theorem foldl_step_rename {xs : List Visit} {s : List Var} (hr : Set.InjOn r {v | v ∈ vs})
    (hs : s ⊆ vs) (hxs : ∀ x ∈ xs, x.var ∈ vs) :
    (xs.map (rename r)).foldl step (s.map r) = (xs.foldl step s).map r := by
  induction xs generalizing s with
  | nil => rfl
  | cons x xs ih =>
    obtain ⟨hx, hxs⟩ := List.forall_mem_cons.1 hxs
    rw [List.map_cons, List.foldl_cons, List.foldl_cons, step_rename hr hs hx,
      ih (step_subset hs hx) hxs]

end Visit

theorem visits_rename (r : Var → Var) (t : Term) :
    (t.rename r).visits = t.visits.map (Visit.rename r) := by
  induction t with
  | const c => rfl
  | var v => rfl
  | lam v body ih =>
    rw [rename_lam, visits_lam, visits_lam, ih]
    rfl
  | lit p as ihp ihas =>
    rw [rename_lit, visits_lit, visits_lit, ihp, List.map_append, List.flatMap_map,
      List.map_flatMap]
    exact congrArg _ (List.flatMap_congr ihas)

/-- The pass over a term meets the occurrences of its variables in order. -/
theorem map_var_visits (t : Term) : t.visits.map Visit.var = t.occurrences := by
  induction t with
  | const c => rfl
  | var v => rfl
  | lam v body ih =>
    rw [visits_lam, occurrences_lam, List.map_cons, ih]
    rfl
  | lit p as ihp ihas =>
    rw [visits_lit, occurrences_lit, List.map_append, ihp, List.map_flatMap]
    exact congrArg _ (List.flatMap_congr ihas)

/-- **The vacuous variables of a renaming** are the renamings of the vacuous variables. -/
theorem vacuous_rename (hr : Set.InjOn r {v | v ∈ vs}) (ht : t.occurrences ⊆ vs) :
    (t.rename r).vacuous = t.vacuous.map r := by
  have hvisits : ∀ x ∈ t.visits, x.var ∈ vs := fun x hx => ht (by
    rw [← map_var_visits]
    exact List.mem_map_of_mem hx)
  rw [vacuous_eq_foldl, vacuous_eq_foldl, visits_rename]
  exact Visit.foldl_step_rename hr (List.nil_subset vs) hvisits

/-! ### Anonymous observations -/

/-- What is observed of a term stays the same when its variables get other identities, as long as
they stay apart and keep their types. -/
def Anonymous {β : Type*} (observe : Term → β) : Prop :=
  ∀ ⦃r : Var → Var⦄ ⦃t : Term⦄, Set.InjOn r {v | v ∈ t.occurrences} →
    (∀ v ∈ t.occurrences, (r v).ty = v.ty) → observe (t.rename r) = observe t

namespace Anonymous

variable {β γ : Type*} {observe : Term → β}

theorem render : Anonymous Term.render := fun _ _ => render_rename

theorem constants : Anonymous Term.constants := fun r t _ _ => constants_rename r t

theorem comp (h : Anonymous observe) (g : β → γ) : Anonymous fun t => g (observe t) :=
  fun _ _ hr hty => congrArg g (h hr hty)

theorem simplify (h : Anonymous observe) (strip : Bool) :
    Anonymous fun t => observe (t.simplify strip) := by
  intro r t hr hty
  have hsub := occurrences_simplify_subset strip t
  change observe ((t.rename r).simplify strip) = observe (t.simplify strip)
  rw [simplify_rename hr (List.Subset.refl _)]
  exact h (hr.mono fun v hv => hsub hv) fun v hv => hty v (hsub hv)

end Anonymous

end LogicalForms.Term
