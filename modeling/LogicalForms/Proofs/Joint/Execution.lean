import LogicalForms.Proofs.Joint.Grouping
import LogicalForms.Proofs.Term.Hygiene

/-!
# Executing each logical form once

`Joint.execute` remembers what it has executed, and nobody can tell except the executor.  An
executor whose answers are a function of the logical form is asked for each logical form once, in
order of first appearance (`Joint.run_executeAt`), and the output is what one gets by asking it for
every derivation (`Joint.execute_recording`).
-/

namespace LogicalForms

variable {α R W : Type} {base : ParserOutput α}

/-! ### Logical forms of an output -/

namespace ParserOutput

theorem nodup_semantics (o : ParserOutput α) : o.semantics.Nodup := nodup_eraseDups _

theorem mem_semantics {o : ParserOutput α} {t : Term} :
    t ∈ o.semantics ↔ ∃ d ∈ o.derivations, d.semantics = t := by
  rw [semantics, List.mem_eraseDups, List.mem_map]

end ParserOutput

namespace Joint

/-! ### Logical forms that are not known yet -/

/-- The logical forms among `ts` that are not known, in order of first appearance. -/
def unknown {β : Type} (known : List (Term × β)) (ts : List Term) : List Term :=
  (ts.filter fun t => (known.lookup t).isNone).eraseDups

variable {β : Type} {known : List (Term × β)} {t : Term} {ts : List Term} {b : β}

theorem unknown_nil (ts : List Term) : unknown ([] : List (Term × β)) ts = ts.eraseDups := by
  simp [unknown]

theorem unknown_cons_of_known (h : known.lookup t = some b) :
    unknown known (t :: ts) = unknown known ts := by
  rw [unknown, List.filter_cons_of_neg (by simp [h]), unknown]

theorem unknown_cons_of_new (h : known.lookup t = none) (b : β) :
    unknown known (t :: ts) = t :: unknown ((t, b) :: known) ts := by
  rw [unknown, List.filter_cons_of_pos (by simp [h]), List.eraseDups_cons, List.filter_filter,
    unknown]
  congr 2
  refine List.filter_congr fun u _ => ?_
  by_cases hu : u = t
  · simp [hu]
  · rw [List.lookup_cons, beq_false_of_ne hu]
    simp

/-! ### Executing -/

/-- **Each logical form that is not known is executed once**, in order of first appearance, and each
derivation gets the evaluations of its logical form. -/
theorem run_executeAt {ex : Executor (StateM W) R α} {f : Term → List (Evaluation R α)}
    (hex : ∀ t w, ((ex.run t).run w).1 = f t) {known : List (Term × List (Evaluation R α))}
    (hknown : ∀ t es, known.lookup t = some es → es = f t) (is : List (Fin base.size)) (w : W) :
    (executeAt ex known is).run w =
      (is.flatMap fun i => (f (base.get i).semantics).map (⟨i, ·⟩),
        (unknown known (is.map fun i => (base.get i).semantics)).foldl
          (fun w t => ((ex.run t).run w).2) w) := by
  induction is generalizing known w with
  | nil => simp [unknown]; rfl
  | cons i is ih =>
    rw [List.flatMap_cons, List.map_cons]
    cases ht : known.lookup (base.get i).semantics with
    | some es =>
      rw [run_executeAt_known ht, ih hknown, unknown_cons_of_known ht, hknown _ _ ht]
    | none =>
      have hrun : (ex.run (base.get i).semantics).run w =
          (f (base.get i).semantics, ((ex.run (base.get i).semantics).run w).2) :=
        Prod.ext (hex _ w) rfl
      rw [run_executeAt_new ht is hrun, ih ?_, unknown_cons_of_new ht, List.foldl_cons]
      intro t es h
      rw [List.lookup_cons] at h
      split at h
      · next heq =>
        rw [eq_of_beq heq, ← Option.some.inj h]
      · exact hknown t es h

/-- The builder that has a pair for every derivation, in order, and every evaluation of its logical
form, in order. -/
def naiveBuilder (base : ParserOutput α) (f : Term → List (Evaluation R α)) (exact : Bool) :
    Builder base R :=
  (({} : Builder base R).addPairs
    (base.positions.flatMap fun i => (f (base.get i).semantics).map (⟨i, ·⟩))).setExact exact

/-- An executor whose answers are a function `f` is asked for each logical form of the output. -/
theorem run_execute [DecidableEq R] {ex : Executor (StateM W) R α}
    {f : Term → List (Evaluation R α)} (hex : ∀ t w, ((ex.run t).run w).1 = f t)
    (base : ParserOutput α) (w : W) :
    (execute base ex).run w =
      ((naiveBuilder base f ex.exact).build,
        base.semantics.foldl (fun w t => ((ex.run t).run w).2) w) := by
  have hsemantics : (base.positions.map fun i => (base.get i).semantics).eraseDups =
      base.semantics := by
    rw [ParserOutput.semantics, ← base.map_get_positions, List.map_map]
    rfl
  have hpairs : (executeAt ex [] base.positions).run w = _ :=
    run_executeAt hex (by simp) base.positions w
  rw [unknown_nil, hsemantics] at hpairs
  rw [execute, StateT.run_bind]
  change ((executeAt ex [] base.positions).run w >>= fun r => pure (_, r.2) : Id _) = _
  rw [hpairs]
  rfl

/-- Answers by a function and writes down what it is asked for. -/
def recording (f : Term → List (Evaluation R α)) (exact : Bool) :
    Executor (StateM (List Term)) R α where
  run t := do
    modify (· ++ [t])
    return f t
  exact := exact

/-- **Nobody can tell that evaluations are remembered.**  The output of an executor that is a
function `f` is that of the builder that is given a pair for every derivation, in order, and every
evaluation `f` has for its logical form, in order.  The executor is asked for each logical form of
the output once, in order of first appearance, whether it has evaluations or not. -/
theorem execute_recording [DecidableEq R] (base : ParserOutput α)
    (f : Term → List (Evaluation R α)) (exact : Bool) (asked : List Term) :
    (execute base (recording f exact)).run asked =
        ((naiveBuilder base f exact).build, asked ++ base.semantics) ∧
      base.semantics.Nodup ∧ ∀ t, t ∈ base.semantics ↔ ∃ d ∈ base.derivations, d.semantics = t := by
  refine ⟨?_, base.nodup_semantics, fun t => ParserOutput.mem_semantics⟩
  have hlog : ∀ ts asked : List Term,
      ts.foldl (fun asked t => (((recording f exact).run t).run asked).2) asked = asked ++ ts := by
    intro ts
    induction ts with
    | nil => simp
    | cons t ts ih =>
      intro asked
      rw [List.foldl_cons, ih]
      exact List.append_assoc asked [t] ts
  have hanswers : ∀ t asked, (((recording f exact).run t).run asked).1 = f t := fun _ _ => rfl
  rw [run_execute hanswers, hlog]
  rfl

/-- Two derivations share a logical form that has no evaluations. -/
example :
    let t : Term := .const ⟨"borders", .atom "e"⟩
    let base : ParserOutput Nat := ⟨[⟨t, 2, 2, ∅⟩, ⟨t, 1, 1, ∅⟩], true⟩
    let executor : Executor (StateM (List Term)) Bool Nat :=
      { run := fun t => modifyGet fun asked => ([], asked ++ [t]) }
    ((execute base executor).run []).2 = [t] := by
  rfl

end Joint

end LogicalForms
