import LogicalForms.Joint.Execute
import Mathlib.Data.List.Nodup
import Mathlib.Tactic.Common

/-!
# Grouping by result

Grouping moves pairs and loses none: the pairs in the groups of accepted results are the accepted
pairs (`Joint.executions_perm`).

The pairs of an executed output are, for each derivation in order, the evaluations of its logical
form (`Joint.exists_run_executeAt`).  So derivations that share a logical form are paired with the
same evaluations (`Joint.Paired`, `Joint.exists_paired_execute`).
-/

namespace LogicalForms

variable {α R : Type} {base : ParserOutput α}

/-! ### Groups -/

namespace JointGroup

variable [DecidableEq R]

/-- Adding a pair adds it to the pairs of the accepted groups if its result is accepted. -/
theorem perm_flatMap_add (accepts : R → Bool) (p : JointPair base R)
    (gs : List (JointGroup base R)) :
    (((add p gs).filter fun g => accepts g.result).flatMap JointGroup.pairs).Perm
      ((gs.filter fun g => accepts g.result).flatMap JointGroup.pairs ++
        [p].filter fun p => accepts p.result) := by
  induction gs with
  | nil =>
    rw [add]
    by_cases h : accepts p.result = true <;> simp [h]
  | cons g gs ih =>
    rw [add]
    split_ifs with hg
    · -- the pair goes to the end of this group
      by_cases h : accepts p.result = true
      · have hg' : accepts g.result = true := hg ▸ h
        simp only [List.filter_cons, hg', h, if_true, List.flatMap_cons, List.filter_nil,
          List.append_assoc]
        exact (List.perm_append_comm).append_left _
      · have hg' : ¬accepts g.result = true := hg ▸ h
        simp [hg', h]
    · -- the pair goes on to the other groups, and this one stays as it is
      by_cases hg' : accepts g.result = true
      · simp only [List.filter_cons, hg', if_true, List.flatMap_cons, List.append_assoc] at ih ⊢
        exact ih.append_left _
      · have hdrop : ∀ hs : List (JointGroup base R),
            (g :: hs).filter (fun g => accepts g.result) =
              hs.filter fun g => accepts g.result := by
          intro hs
          simp [hg']
        rw [hdrop, hdrop]
        exact ih

theorem perm_flatMap_foldl_add (accepts : R → Bool) (ps : List (JointPair base R))
    (gs : List (JointGroup base R)) :
    (((ps.foldl (fun gs p => add p gs) gs).filter fun g => accepts g.result).flatMap
        JointGroup.pairs).Perm
      ((gs.filter fun g => accepts g.result).flatMap JointGroup.pairs ++
        ps.filter fun p => accepts p.result) := by
  induction ps generalizing gs with
  | nil => simp
  | cons p ps ih =>
    have hsplit : (p :: ps).filter (fun p => accepts p.result) =
        [p].filter (fun p => accepts p.result) ++ ps.filter fun p => accepts p.result := by
      rw [← List.filter_append, List.singleton_append]
    rw [List.foldl_cons, hsplit, ← List.append_assoc]
    exact (ih (add p gs)).trans ((perm_flatMap_add accepts p gs).append_right _)

end JointGroup

namespace Joint

/-- **Grouping loses no pair.** -/
theorem executions_perm [DecidableEq R] (b : Builder base R) (accepts : R → Bool) :
    (b.build.executions accepts).Perm (b.pairs.filter fun p => accepts p.result) :=
  JointGroup.perm_flatMap_foldl_add accepts b.pairs []

/-! ### Evaluations of logical forms -/

/-- The evaluations that a derivation is paired with. -/
def evaluationsOf (ps : List (JointPair base R)) (i : Fin base.size) : List (Evaluation R α) :=
  (ps.filter fun p => p.source = i).map JointPair.evaluation

/-- Derivations with one logical form are paired with the same evaluations, in any order. -/
def Paired (ps : List (JointPair base R)) : Prop :=
  ∀ i j, (base.get i).semantics = (base.get j).semantics →
    (evaluationsOf ps i).Perm (evaluationsOf ps j)

theorem evaluationsOf_filter (accepts : R → Bool) (ps : List (JointPair base R))
    (i : Fin base.size) :
    evaluationsOf (ps.filter fun p => accepts p.result) i =
      (evaluationsOf ps i).filter fun e => accepts e.result := by
  rw [evaluationsOf, evaluationsOf, List.filter_map, List.filter_filter, List.filter_filter]
  congr 1
  exact List.filter_congr fun p _ => Bool.and_comm _ _

theorem evaluationsOf_perm {ps qs : List (JointPair base R)} (h : ps.Perm qs)
    (i : Fin base.size) : (evaluationsOf ps i).Perm (evaluationsOf qs i) :=
  (h.filter _).map _

theorem Paired.executions [DecidableEq R] {b : Builder base R} (h : Paired b.pairs)
    (accepts : R → Bool) : Paired (b.build.executions accepts) := by
  intro i j hij
  have hperm := executions_perm b accepts
  refine (evaluationsOf_perm hperm i).trans (.trans ?_ (evaluationsOf_perm hperm j).symm)
  rw [evaluationsOf_filter, evaluationsOf_filter]
  exact (h i j hij).filter _

/-! ### Executing -/

variable {W : Type}

theorem run_executeAt_known {ex : Executor (StateM W) R α}
    {known : List (Term × List (Evaluation R α))} {i : Fin base.size} {es : List (Evaluation R α)}
    (h : known.lookup (base.get i).semantics = some es) (is : List (Fin base.size)) (w : W) :
    (executeAt ex known (i :: is)).run w =
      (es.map (⟨i, ·⟩) ++ ((executeAt ex known is).run w).1,
        ((executeAt ex known is).run w).2) := by
  simp only [executeAt, h]
  rfl

theorem run_executeAt_new {ex : Executor (StateM W) R α}
    {known : List (Term × List (Evaluation R α))} {i : Fin base.size}
    (h : known.lookup (base.get i).semantics = none) (is : List (Fin base.size)) {w w' : W}
    {es : List (Evaluation R α)} (hrun : (ex.run (base.get i).semantics).run w = (es, w')) :
    (executeAt ex known (i :: is)).run w =
      (es.map (⟨i, ·⟩) ++
          ((executeAt ex (((base.get i).semantics, es) :: known) is).run w').1,
        ((executeAt ex (((base.get i).semantics, es) :: known) is).run w').2) := by
  simp only [executeAt, h]
  change (do
    let es ← ex.run (base.get i).semantics
    let rest ← executeAt ex (((base.get i).semantics, es) :: known) is
    return es.map (⟨i, ·⟩) ++ rest : StateM W _).run w = _
  rw [StateT.run_bind, hrun]
  rfl

/-- **Each derivation gets the evaluations of its logical form**, which are those that are known
already, if there are any, and those that the executor answers otherwise. -/
theorem exists_run_executeAt (ex : Executor (StateM W) R α)
    (known : List (Term × List (Evaluation R α))) (is : List (Fin base.size)) (w : W) :
    ∃ f : Term → List (Evaluation R α), (∀ t es, known.lookup t = some es → f t = es) ∧
      (∀ i ∈ is, known.lookup (base.get i).semantics = none →
        ∃ w', f (base.get i).semantics = ((ex.run (base.get i).semantics).run w').1) ∧
      ((executeAt ex known is).run w).1 =
        is.flatMap fun i => (f (base.get i).semantics).map (⟨i, ·⟩) := by
  induction is generalizing known w with
  | nil => exact ⟨fun t => (known.lookup t).getD [], fun t es h => by simp [h], by simp, rfl⟩
  | cons i is ih =>
    cases ht : known.lookup (base.get i).semantics with
    | some es =>
      -- the executor is not asked, so the world stays as it is
      obtain ⟨f, hknown, hasked, hrest⟩ := ih known w
      refine ⟨f, hknown, fun j hj hnone => ?_, ?_⟩
      · rcases List.mem_cons.1 hj with rfl | hj
        · simp [ht] at hnone
        · exact hasked j hj hnone
      · rw [run_executeAt_known ht, List.flatMap_cons, ← hrest, hknown _ _ ht]
    | none =>
      obtain ⟨es, w', hrun⟩ : ∃ es w', (ex.run (base.get i).semantics).run w = (es, w') :=
        ⟨_, _, rfl⟩
      obtain ⟨f, hknown, hasked, hrest⟩ := ih (((base.get i).semantics, es) :: known) w'
      have hes : f (base.get i).semantics = es := hknown _ _ (by simp)
      refine ⟨f, fun t es' h => hknown t es' ?_, fun j hj hnone => ?_, ?_⟩
      · -- the new logical form was not known
        have hne : t ≠ (base.get i).semantics := by
          rintro rfl
          simp [ht] at h
        rw [List.lookup_cons, beq_false_of_ne hne, h]
      · by_cases hsame : (base.get j).semantics = (base.get i).semantics
        · exact ⟨w, by rw [hsame, hes, hrun]⟩
        · -- a logical form that is still unknown comes later
          have hj' : j ∈ is := (List.mem_cons.1 hj).resolve_left fun hji => hsame (by rw [hji])
          refine hasked j hj' ?_
          rw [List.lookup_cons, beq_false_of_ne hsame, hnone]
      · rw [run_executeAt_new ht is hrun, List.flatMap_cons, ← hrest, hes]

theorem evaluationsOf_map_mk (es : List (Evaluation R α)) (i j : Fin base.size) :
    evaluationsOf (es.map fun e => (⟨j, e⟩ : JointPair base R)) i = if j = i then es else [] := by
  rw [evaluationsOf, List.filter_map, List.map_map]
  split_ifs with h
  · simp [Function.comp_def, h]
  · simp [Function.comp_def, h]

theorem evaluationsOf_flatMap (f : Term → List (Evaluation R α)) {is : List (Fin base.size)}
    (hnodup : is.Nodup) {i : Fin base.size} (hi : i ∈ is) :
    evaluationsOf (is.flatMap fun j =>
        (f (base.get j).semantics).map fun e => (⟨j, e⟩ : JointPair base R)) i =
      f (base.get i).semantics := by
  have hnone : ∀ js : List (Fin base.size), i ∉ js →
      evaluationsOf (js.flatMap fun j =>
        (f (base.get j).semantics).map fun e => (⟨j, e⟩ : JointPair base R)) i = [] := by
    intro js hjs
    simp only [evaluationsOf, List.map_eq_nil_iff, List.filter_eq_nil_iff, List.mem_flatMap,
      List.mem_map, decide_eq_true_eq]
    rintro p ⟨j, hj, e, -, rfl⟩ rfl
    exact hjs hj
  induction is with
  | nil => simp at hi
  | cons j js ih =>
    obtain ⟨hj, hjs⟩ := List.nodup_cons.1 hnodup
    rw [List.flatMap_cons, evaluationsOf, List.filter_append, List.map_append]
    rw [← evaluationsOf, ← evaluationsOf, evaluationsOf_map_mk]
    split_ifs with hij
    · -- the position does not come again
      subst hij
      rw [hnone js hj, List.append_nil]
    · rw [List.nil_append]
      exact ih hjs ((List.mem_cons.1 hi).resolve_left (Ne.symm hij))

/-- **Executing pairs the derivations of one logical form with the same evaluations.** -/
theorem exists_paired_execute [DecidableEq R] (base : ParserOutput α)
    (ex : Executor (StateM W) R α) (w : W) :
    ∃ b : Builder base R, Paired b.pairs ∧ ((execute base ex).run w).1 = b.build := by
  obtain ⟨f, -, -, hpairs⟩ := exists_run_executeAt ex [] (List.finRange base.size) w
  refine ⟨⟨((executeAt ex [] (List.finRange base.size)).run w).1, ex.exact⟩,
    fun i j hij => ?_, rfl⟩
  have hi : ∀ i, evaluationsOf (((executeAt ex [] (List.finRange base.size)).run w).1) i =
      f (base.get i).semantics := fun i => by
    rw [hpairs, evaluationsOf_flatMap f (List.nodup_finRange _) (List.mem_finRange i)]
  rw [hi, hi, hij]

end Joint

end LogicalForms
