import LogicalForms.Term.Simplify
import Mathlib.Data.List.Basic

/-!
# Unused binders

A lambda is unused when its body does not mention its argument.  Simplification decides this on the
body that it has simplified already; `Term.prune` decides it on the body as it is given, from the
top down.  Both drop the same lambdas (`Term.simplify_true`), because simplification never drops a
leaf (`Term.mentions_simplify`).

What is left over is seen in two views of a term:

* `Term.leaves` — the leaves, each with the body of the nearest lambda around it that binds it.
  `Term.leaves_prune`: the leaves stay, and so do these lambdas.
* `Term.lambdas` — the lambdas.  A term without unused ones does not change any more
  (`Term.prune_eq_self`).
-/

namespace LogicalForms.Term

/-! ### Pruning and the two views -/

mutual

/-- The term without its unused lambdas. -/
def prune : Term → Term
  | .const c => .const c
  | .var v => .var v
  | .lam v body => if body.mentions v then .lam v body.prune else body.prune
  | .lit p as => .lit p.prune (pruneAll as)

/-- Prunes each of the terms. -/
def pruneAll : List Term → List Term
  | [] => []
  | t :: ts => t.prune :: pruneAll ts

end

/-- A leaf of a term. -/
structure Leaf where
  /-- The constant or the variable. -/
  term : Term
  /-- The body of the nearest lambda around the leaf that binds it, if there is one. -/
  body? : Option Term

/-- Applies a function to the body of the binder. -/
def Leaf.mapBody (f : Term → Term) (l : Leaf) : Leaf := { l with body? := l.body?.map f }

mutual

/-- The leaves of a term that stands inside of other lambdas, which are given by their arguments and
bodies, the innermost first. -/
def leavesIn (scope : List (Var × Term)) : Term → List Leaf
  | .const c => [⟨.const c, none⟩]
  | .var v => [⟨.var v, scope.lookup v⟩]
  | .lam v body => body.leavesIn ((v, body) :: scope)
  | .lit p as => p.leavesIn scope ++ allLeavesIn scope as

/-- The leaves of the terms, in order. -/
def allLeavesIn (scope : List (Var × Term)) : List Term → List Leaf
  | [] => []
  | t :: ts => t.leavesIn scope ++ allLeavesIn scope ts

end

/-- The leaves of a term, in order. -/
def leaves (t : Term) : List Leaf := t.leavesIn []

mutual

/-- The lambdas of a term, each as its argument and its body. -/
def lambdas : Term → List (Var × Term)
  | .const _ => []
  | .var _ => []
  | .lam v body => (v, body) :: body.lambdas
  | .lit p as => p.lambdas ++ allLambdas as

/-- The lambdas of the terms. -/
def allLambdas : List Term → List (Var × Term)
  | [] => []
  | t :: ts => t.lambdas ++ allLambdas ts

end

theorem pruneAll_eq (ts : List Term) : pruneAll ts = ts.map prune := by
  induction ts with
  | nil => rfl
  | cons t ts ih => simp [pruneAll, ih]

theorem allLeavesIn_eq (scope : List (Var × Term)) (ts : List Term) :
    allLeavesIn scope ts = ts.flatMap (leavesIn scope) := by
  induction ts with
  | nil => rfl
  | cons t ts ih => simp [allLeavesIn, ih]

theorem allLambdas_eq (ts : List Term) : allLambdas ts = ts.flatMap lambdas := by
  induction ts with
  | nil => rfl
  | cons t ts ih => simp [allLambdas, ih]

@[simp] theorem prune_const (c : Constant) : (const c).prune = const c := rfl

@[simp] theorem prune_var (v : Var) : (var v).prune = var v := rfl

theorem prune_lam (v : Var) (t : Term) :
    (lam v t).prune = if t.mentions v then lam v t.prune else t.prune := rfl

@[simp] theorem prune_lit (p : Term) (as : List Term) :
    (lit p as).prune = lit p.prune (as.map prune) := by
  rw [← pruneAll_eq]
  rfl

@[simp] theorem leavesIn_const (scope : List (Var × Term)) (c : Constant) :
    (const c).leavesIn scope = [⟨const c, none⟩] := rfl

@[simp] theorem leavesIn_var (scope : List (Var × Term)) (v : Var) :
    (var v).leavesIn scope = [⟨var v, scope.lookup v⟩] := rfl

@[simp] theorem leavesIn_lam (scope : List (Var × Term)) (v : Var) (t : Term) :
    (lam v t).leavesIn scope = t.leavesIn ((v, t) :: scope) := rfl

@[simp] theorem leavesIn_lit (scope : List (Var × Term)) (p : Term) (as : List Term) :
    (lit p as).leavesIn scope = p.leavesIn scope ++ as.flatMap (leavesIn scope) := by
  rw [← allLeavesIn_eq]
  rfl

@[simp] theorem lambdas_const (c : Constant) : (const c).lambdas = [] := rfl

@[simp] theorem lambdas_var (v : Var) : (var v).lambdas = [] := rfl

@[simp] theorem lambdas_lam (v : Var) (t : Term) : (lam v t).lambdas = (v, t) :: t.lambdas := rfl

@[simp] theorem lambdas_lit (p : Term) (as : List Term) :
    (lit p as).lambdas = p.lambdas ++ as.flatMap lambdas := by
  rw [← allLambdas_eq]
  rfl

/-! ### What simplification does -/

@[simp] theorem mentions_simplify (strip : Bool) (x : Var) (t : Term) :
    (t.simplify strip).mentions x = t.mentions x := by
  induction t with
  | const c => rfl
  | var v => rfl
  | lam v body ih =>
    rw [simplify_lam]
    split_ifs
    · exact ih
    · exact ih
  | lit p as ihp ihas =>
    rw [simplify_lit, mentions_lit, mentions_lit, ihp, List.any_map]
    congr 1
    rw [Bool.eq_iff_iff, List.any_eq_true, List.any_eq_true]
    exact exists_congr fun a => and_congr_right fun ha => by rw [Function.comp_apply, ihas a ha]

theorem simplify_false (t : Term) : t.simplify false = t := by
  induction t with
  | const c => rfl
  | var v => rfl
  | lam v body ih =>
    rw [simplify_lam, ih]
    rfl
  | lit p as ihp ihas =>
    have has : as.map (simplify false) = as.map id := List.map_congr_left ihas
    rw [simplify_lit, ihp, has, List.map_id]

/-- **Deciding from the bottom up drops the same lambdas as deciding from the top down.** -/
theorem simplify_true (t : Term) : t.simplify true = t.prune := by
  induction t with
  | const c => rfl
  | var v => rfl
  | lam v body ih =>
    rw [simplify_lam, mentions_simplify, prune_lam, ih]
    cases body.mentions v <;> rfl
  | lit p as ihp ihas =>
    rw [simplify_lit, prune_lit, ihp, List.map_congr_left ihas]

theorem mentions_prune (x : Var) (t : Term) : t.prune.mentions x = t.mentions x := by
  rw [← simplify_true, mentions_simplify]

/-- The leaves of a pruned term are those of the term, if what it mentions is bound alike. -/
theorem leavesIn_prune {t : Term} {scope scope' : List (Var × Term)}
    (h : ∀ x, t.mentions x = true → scope'.lookup x = (scope.lookup x).map prune) :
    t.prune.leavesIn scope' = (t.leavesIn scope).map (Leaf.mapBody prune) := by
  induction t generalizing scope scope' with
  | const c => rfl
  | var v =>
    simp only [prune_var, leavesIn_var, List.map_cons, List.map_nil, Leaf.mapBody]
    rw [h v (by simp)]
  | lam v body ih =>
    rw [prune_lam, leavesIn_lam]
    split_ifs with hv
    · refine ih fun x hx => ?_
      rw [List.lookup_cons, List.lookup_cons]
      cases x == v with
      | true => rfl
      | false => exact h x hx
    · -- no leaf is looked up under the lambda that is dropped
      refine ih fun x hx => ?_
      have hne : (x == v) = false := beq_eq_false_iff_ne.2 fun heq => hv (heq ▸ hx)
      rw [List.lookup_cons, hne]
      exact h x hx
  | lit p as ihp ihas =>
    simp only [mentions_lit, Bool.or_eq_true, List.any_eq_true] at h
    rw [prune_lit, leavesIn_lit, leavesIn_lit, List.map_append, List.flatMap_map, List.map_flatMap,
      ihp fun x hx => h x (.inl hx)]
    congr 1
    exact List.flatMap_congr fun a ha => ihas a ha fun x hx => h x (.inr ⟨a, ha, hx⟩)

theorem leaves_prune (t : Term) : t.prune.leaves = t.leaves.map (Leaf.mapBody prune) :=
  leavesIn_prune fun _ _ => rfl

theorem mentions_of_mem_lambdas_prune {t : Term} {l : Var × Term} (h : l ∈ t.prune.lambdas) :
    l.2.mentions l.1 = true := by
  induction t with
  | const c => cases h
  | var v => cases h
  | lam v body ih =>
    rw [prune_lam] at h
    split_ifs at h with hv
    · rcases List.mem_cons.1 h with rfl | h
      · exact (mentions_prune v body).trans hv
      · exact ih h
    · exact ih h
  | lit p as ihp ihas =>
    simp only [prune_lit, lambdas_lit, List.mem_append, List.mem_flatMap, List.mem_map] at h
    rcases h with h | ⟨_, ⟨a, ha, rfl⟩, h⟩
    · exact ihp h
    · exact ihas a ha h

theorem prune_eq_self {t : Term} (h : ∀ l ∈ t.lambdas, l.2.mentions l.1 = true) :
    t.prune = t := by
  induction t with
  | const c => rfl
  | var v => rfl
  | lam v body ih =>
    simp only [lambdas_lam, List.mem_cons, forall_eq_or_imp] at h
    rw [prune_lam, if_pos h.1, ih h.2]
  | lit p as ihp ihas =>
    simp only [lambdas_lit, List.mem_append, List.mem_flatMap] at h
    have has : as.map prune = as.map id :=
      List.map_congr_left fun a ha => ihas a ha fun l hl => h l (.inr ⟨a, ha, hl⟩)
    rw [prune_lit, ihp fun l hl => h l (.inl hl), has, List.map_id]

/-- **Stripping drops the unused lambdas and nothing else.**  The leaves stay in their order, each
under the lambda that binds it; every lambda that is left mentions its argument; and simplifying
once more changes nothing. -/
theorem simplify_drops_unused (t : Term) :
    t.simplify false = t ∧ t.simplify true = t.prune ∧
      (t.simplify true).leaves = t.leaves.map (Leaf.mapBody (simplify true)) ∧
      ((t.simplify true).lambdas.all fun l => l.2.mentions l.1) = true ∧
      ∀ strip, (t.simplify strip).simplify strip = t.simplify strip := by
  have hprune : simplify true = prune := funext simplify_true
  refine ⟨simplify_false t, simplify_true t, ?_, ?_, fun strip => ?_⟩
  · rw [hprune, leaves_prune]
  · rw [hprune, List.all_eq_true]
    exact fun l hl => mentions_of_mem_lambdas_prune hl
  · cases strip with
    | false => rw [simplify_false, simplify_false]
    | true =>
      rw [hprune]
      exact prune_eq_self fun l hl => mentions_of_mem_lambdas_prune hl

end LogicalForms.Term
