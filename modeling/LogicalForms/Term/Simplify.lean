import LogicalForms.Term.Variables

/-!
# Simplification

`Term.simplify` works bottom-up.  With `strip` it drops every lambda whose argument is not mentioned
in its simplified body, which then takes its place; without it nothing changes.

`Term.rewrite?` tells a term that changes from one that does not, so that a term is rebuilt only
where something changes below it.  Whatever it answers, simplifying a term comes down to simplifying
its parts: `Term.simplify_lam` and `Term.simplify_lit`.
-/

namespace LogicalForms.Term

mutual

/-- The term with its unused binders dropped, if `strip` is set; nothing if this is the term
itself. -/
def rewrite? (strip : Bool) : Term → Option Term
  | .const _ => none
  | .var _ => none
  | .lam v body =>
    let body? := body.rewrite? strip
    if strip && !(body?.getD body).mentions v then some (body?.getD body) else body?.map (.lam v)
  | .lit p as =>
    let p? := p.rewrite? strip
    let as? := rewriteAll? strip as
    if p?.isNone && as?.all Option.isNone then none
    else some (.lit (p?.getD p) (List.zipWith Option.getD as? as))

/-- What `rewrite?` gives for each of the terms. -/
def rewriteAll? (strip : Bool) : List Term → List (Option Term)
  | [] => []
  | t :: ts => t.rewrite? strip :: rewriteAll? strip ts

end

/-- The term with its unused binders dropped, if `strip` is set. -/
def simplify (strip : Bool) (t : Term) : Term := (t.rewrite? strip).getD t

theorem rewriteAll?_eq (strip : Bool) (ts : List Term) :
    rewriteAll? strip ts = ts.map (rewrite? strip) := by
  induction ts with
  | nil => rfl
  | cons t ts ih => simp [rewriteAll?, ih]

theorem simplify_of_isNone {strip : Bool} {t : Term} (h : (t.rewrite? strip).isNone = true) :
    t.simplify strip = t := by
  rw [simplify, Option.isNone_iff_eq_none.1 h, Option.getD_none]

@[simp] theorem simplify_const (strip : Bool) (c : Constant) :
    (const c).simplify strip = const c := rfl

@[simp] theorem simplify_var (strip : Bool) (v : Var) : (var v).simplify strip = var v := rfl

theorem simplify_lam (strip : Bool) (v : Var) (t : Term) :
    (lam v t).simplify strip =
      if strip && !(t.simplify strip).mentions v then t.simplify strip
      else lam v (t.simplify strip) := by
  rw [simplify, rewrite?]
  show (if strip && !(t.simplify strip).mentions v then some (t.simplify strip)
    else (t.rewrite? strip).map (lam v)).getD (lam v t) = _
  split
  · rfl
  · rw [simplify]
    cases t.rewrite? strip <;> rfl

@[simp] theorem simplify_lit (strip : Bool) (p : Term) (as : List Term) :
    (lit p as).simplify strip = lit (p.simplify strip) (as.map (simplify strip)) := by
  rw [simplify, rewrite?, rewriteAll?_eq]
  split
  · next hsame =>
    rw [Bool.and_eq_true, List.all_map, List.all_eq_true] at hsame
    have has : as.map (simplify strip) = as.map id :=
      List.map_congr_left fun a ha => simplify_of_isNone (hsame.2 a ha)
    rw [simplify_of_isNone hsame.1, has, List.map_id, Option.getD_none]
  · rw [List.zipWith_map_left, List.zipWith_self, Option.getD_some]
    rfl

end LogicalForms.Term
