import LogicalForms.Proofs.Joint.ExpectedFeatures

/-!
# The normalizer of a joint output

The normalizer of a joint output adds up masses twice, within each group and over the groups.  It is
the logarithm of the mass of the accepted pairs, however they are grouped and in whatever order they
were added (`Joint.logNorm_eq_logSumExp_pairs`).

When the evaluations of each logical form have total mass one, executing an output keeps its
normalizer (`Joint.logNorm_execute`).
-/

namespace LogicalForms

open LogReal

variable [ExpLog] {R : Type} {base : ParserOutput LogReal}

namespace Joint

/-! ### Grouped masses -/

theorem mass_logNorm (j : Joint base R) (accepts : R → Bool) :
    mass (j.logNorm accepts) =
      ((j.executions accepts).map fun p => mass p.logInside).sum := by
  have key : ∀ gs : List (JointGroup base R),
      ((gs.map JointGroup.logInside).map mass).sum =
        ((gs.flatMap JointGroup.pairs).map fun p => mass p.logInside).sum := by
    intro gs
    induction gs with
    | nil => rfl
    | cons g gs ih =>
      have hgroup : mass g.logInside = (g.pairs.map fun p => mass p.logInside).sum := by
        rw [JointGroup.logInside, mass_logSumExp, List.map_map]
        rfl
      rw [List.map_cons, List.map_cons, List.sum_cons, ih, hgroup, List.flatMap_cons,
        List.map_append, List.sum_append]
  rw [logNorm, mass_logSumExp, key, executions]

theorem logNorm_eq_logSumExp_executions (j : Joint base R) (accepts : R → Bool) :
    j.logNorm accepts = logSumExp ((j.executions accepts).map JointPair.logInside) := by
  apply mass_injective
  rw [mass_logNorm, mass_logSumExp, List.map_map]
  rfl

/-- **The normalizer takes no notice of the grouping.** -/
theorem logNorm_eq_logSumExp_pairs [DecidableEq R] (b : Builder base R) (accepts : R → Bool) :
    b.build.logNorm accepts =
      logSumExp ((b.pairs.filter fun p => accepts p.result).map JointPair.logInside) := by
  rw [logNorm_eq_logSumExp_executions]
  exact logSumExp_perm ((executions_perm b accepts).map _)

/-! ### Executed outputs -/

/-- The pairs of a derivation have the mass of the derivation times that of the evaluations. -/
theorem sum_mass_pairs (i : Fin base.size) (es : List (Evaluation R LogReal)) :
    ((es.map fun e => (⟨i, e⟩ : JointPair base R)).map fun p => mass p.logInside).sum =
      mass (base.get i).logInside * evaluationMass es := by
  rw [List.map_map, evaluationMass, ← List.sum_map_mul_left]
  congr 1
  exact List.map_congr_left fun e _ => mass_add _ _

/-- Whenever the executor is asked for the logical form, its evaluations have mass one in total. -/
def NormalizedOn {W : Type} (ex : Executor (StateM W) R LogReal) (t : Term) : Prop :=
  ∀ w, logSumExp (((ex.run t).run w).1.map Evaluation.logScore) = 0

theorem NormalizedOn.evaluationMass_eq_one {W : Type} {ex : Executor (StateM W) R LogReal}
    {t : Term} (h : NormalizedOn ex t) (w : W) : evaluationMass ((ex.run t).run w).1 = 1 := by
  have hmass : mass (logSumExp (((ex.run t).run w).1.map Evaluation.logScore)) = mass 0 :=
    congrArg mass (h w)
  rw [mass_logSumExp, List.map_map, mass_zero] at hmass
  exact hmass

theorem logNorm_execute [DecidableEq R] {W : Type} {ex : Executor (StateM W) R LogReal}
    (h : ∀ d ∈ base.derivations, NormalizedOn ex d.semantics) (w : W) :
    ((execute base ex).run w).1.logNorm = base.logNorm := by
  obtain ⟨f, -, hasked, hpairs⟩ := exists_run_executeAt ex [] (List.finRange base.size) w
  have hone : ∀ i, evaluationMass (f (base.get i).semantics) = 1 := by
    intro i
    obtain ⟨w', hf⟩ := hasked i (List.mem_finRange i) rfl
    rw [hf]
    exact (h _ (List.get_mem _ _)).evaluationMass_eq_one w'
  have key : ∀ is : List (Fin base.size),
      ((is.flatMap fun i => (f (base.get i).semantics).map fun e => (⟨i, e⟩ : JointPair base R)).map
        fun p => mass p.logInside).sum = (is.map fun i => mass (base.get i).logInside).sum := by
    intro is
    induction is with
    | nil => rfl
    | cons i is ih =>
      rw [List.flatMap_cons, List.map_append, List.sum_append, ih, sum_mass_pairs, hone, mul_one,
        List.map_cons, List.sum_cons]
  let b : Builder base R := ⟨((executeAt ex [] (List.finRange base.size)).run w).1, ex.exact⟩
  apply mass_injective
  calc mass (b.build.logNorm fun _ => true)
    _ = (b.pairs.map fun p => mass p.logInside).sum := by
      rw [logNorm_eq_logSumExp_pairs, mass_logSumExp, List.map_map, List.filter_true]
      rfl
    _ = ((List.finRange base.size).map fun i => mass (base.get i).logInside).sum := by
      rw [← key, ← hpairs]
    _ = mass base.logNorm := by
      rw [ParserOutput.logNorm, mass_logSumExp, ← base.map_get_positions, List.map_map,
        List.map_map]
      rfl

/-- **The normalizer does not depend on the grouping.**  It is the logarithm of the total mass of
the accepted pairs, listed group by group or as they were added, and any order of adding them leads
to the same one.  Executing with normalized evaluations keeps the normalizer of the output. -/
theorem logNorm_ungrouped [DecidableEq R] :
    (∀ (base : ParserOutput LogReal) (b : Builder base R) (accepts : R → Bool),
      b.build.logNorm accepts =
          logSumExp ((b.build.executions accepts).map JointPair.logInside) ∧
        b.build.logNorm accepts =
          logSumExp ((b.pairs.filter fun p => accepts p.result).map JointPair.logInside) ∧
        ∀ b' : Builder base R, b.pairs.Perm b'.pairs →
          b'.build.logNorm accepts = b.build.logNorm accepts) ∧
    ∀ (W : Type) (base : ParserOutput LogReal) (ex : Executor (StateM W) R LogReal),
      (∀ d ∈ base.derivations, NormalizedOn ex d.semantics) →
      ∀ w, ((execute base ex).run w).1.logNorm = base.logNorm := by
  refine ⟨fun base b accepts => ⟨logNorm_eq_logSumExp_executions _ accepts,
    logNorm_eq_logSumExp_pairs b accepts, fun b' h => ?_⟩,
    fun W base ex h w => logNorm_execute h w⟩
  rw [logNorm_eq_logSumExp_pairs, logNorm_eq_logSumExp_pairs]
  exact logSumExp_perm ((h.symm.filter _).map _)

/-- Tosses a coin for every logical form. -/
noncomputable def coinToss : Executor (StateM Unit) String LogReal where
  run _ := return [⟨"heads", ((ExpLog.log (1 + 1)⁻¹ : ℝ) : LogReal), ∅⟩,
    ⟨"tails", ((ExpLog.log (1 + 1)⁻¹ : ℝ) : LogReal), ∅⟩]

theorem normalizedOn_coinToss (t : Term) : NormalizedOn coinToss t := by
  intro w
  apply mass_injective
  change mass (logSumExp [((ExpLog.log (1 + 1)⁻¹ : ℝ) : LogReal),
    ((ExpLog.log (1 + 1)⁻¹ : ℝ) : LogReal)]) = _
  have hhalf : mass ((ExpLog.log (1 + 1)⁻¹ : ℝ) : LogReal) = (1 + 1)⁻¹ :=
    ExpLog.exp_log _ (inv_pos.2 (add_pos one_pos one_pos))
  rw [mass_logSumExp, mass_zero]
  simp only [List.map_cons, List.map_nil, List.sum_cons, List.sum_nil, hhalf]
  norm_num

omit [ExpLog] in
theorem logNorm_ungrouped_coinToss :
    let _ := ExpLog.standard
    (⟨crossedPairs.reverse, true⟩ : Builder twoReadings String).build.logNorm (· = "a") =
        crossed.build.logNorm (· = "a") ∧
      ((execute twoReadings coinToss).run ()).1.logNorm = twoReadings.logNorm := by
  intro _
  obtain ⟨hgrouped, hexecuted⟩ := logNorm_ungrouped (R := String)
  exact ⟨(hgrouped twoReadings crossed (· = "a")).2.2 _ (List.reverse_perm _).symm,
    hexecuted Unit twoReadings coinToss (fun _ _ => normalizedOn_coinToss _) ()⟩

end Joint

end LogicalForms
