import LogicalForms.Proofs.Joint.ExpectedFeatures
import LogicalForms.Proofs.Joint.StableGroups
import LogicalForms.Proofs.Score.LogOrder
import LogicalForms.Proofs.Score.Order

/-!
# The best results

A group scores as its best pair, so the best groups are those of the pairs that no pair outscores
(`Joint.mem_best_iff`).  They stand in the order in which their results first appeared.

Within a group, the score of the best pair and the logarithm of the mass of all pairs stay close to
each other, as long as no derivation has less mass than its score says
(`JointGroup.score_le_logInside`) or more of it (`JointGroup.logInside_le`).
-/

namespace LogicalForms

open LogReal

variable [ExpLog] {R : Type} {base : ParserOutput LogReal}

/-! ### One group -/

namespace JointGroup

variable {g : JointGroup base R} {p : JointPair base R}

theorem score_le_iff {x : LogReal} : g.score ≤ x ↔ ∀ p ∈ g.pairs, p.score ≤ x := by
  rw [score, largest_le_iff, List.forall_mem_map]

theorem le_score (h : p ∈ g.pairs) : p.score ≤ g.score := score_le_iff.1 le_rfl p h

theorem exists_score_eq (h : g.pairs ≠ []) : ∃ p ∈ g.pairs, p.score = g.score := by
  have hne : g.pairs.map JointPair.score ≠ [] := by simpa using h
  exact List.mem_map.1 (largest_mem hne)

variable [ExpLog.Increasing]

/-- **A group scores no more than its mass**, if none of its derivations does. -/
theorem score_le_logInside (h : ∀ p ∈ g.pairs, p.derivation.score ≤ p.derivation.logInside) :
    g.score ≤ g.logInside := by
  refine score_le_iff.2 fun p hp => ?_
  calc p.score
      ≤ p.logInside := add_le_add_left (h p hp) _
    _ ≤ g.logInside := le_logSumExp (List.mem_map_of_mem hp)

/-- **A group has no more mass than all of its pairs would have at its score**, if the mass of each
derivation is what its score says. -/
theorem logInside_le (h : ∀ p ∈ g.pairs, p.derivation.score = p.derivation.logInside) :
    g.logInside ≤ g.score + LogScale.log ((g.pairs.length : ℝ) : LogReal) := by
  have hbound : ∀ x ∈ g.pairs.map JointPair.logInside, x ≤ g.score := by
    refine List.forall_mem_map.2 fun p hp => ?_
    rw [JointPair.logInside, ← h p hp]
    exact le_score hp
  have hlog := logSumExp_le hbound
  rwa [List.length_map] at hlog

end JointGroup

/-! ### All groups -/

namespace Joint

variable [DecidableEq R] {b : Builder base R} {g : JointGroup base R}

omit [ExpLog] in
theorem mem_groups_build_iff :
    g ∈ b.build.groups ↔ ∃ p ∈ b.pairs, JointGroup.ofResult b.pairs p.result = g := by
  simp only [groups_build, List.mem_map, List.mem_eraseDups, exists_exists_and_eq_and]

omit [ExpLog] in
theorem mem_pairs_iff (hg : g ∈ b.build.groups) {p : JointPair base R} :
    p ∈ g.pairs ↔ p ∈ b.pairs ∧ p.result = g.result := by
  obtain ⟨q, -, rfl⟩ := mem_groups_build_iff.1 hg
  simp [JointGroup.ofResult]

omit [ExpLog] in
theorem pairs_ne_nil (hg : g ∈ b.build.groups) : g.pairs ≠ [] := by
  obtain ⟨p, hp, rfl⟩ := mem_groups_build_iff.1 hg
  exact List.ne_nil_of_mem (List.mem_filter.2 ⟨hp, decide_eq_true rfl⟩)

omit [ExpLog] in
theorem groups_build_eq_nil_iff : b.build.groups = [] ↔ b.pairs = [] := by
  simp only [List.eq_nil_iff_forall_not_mem, mem_groups_build_iff, not_exists, not_and]
  exact ⟨fun h p hp => h _ p hp rfl, fun h g p hp => absurd hp (h p)⟩

omit [DecidableEq R] in
theorem best_eq_topScoring (j : Joint base R) :
    j.best = topScoring JointGroup.score j.groups :=
  bestBy_eq_topScoring fun _ _ => beq_self_eq_true _

/-- **The best groups are those of the best pairs.** -/
theorem mem_best_iff :
    g ∈ b.build.best ↔
      g ∈ b.build.groups ∧
        ∃ p ∈ b.pairs, p.result = g.result ∧ ∀ q ∈ b.pairs, q.score ≤ p.score := by
  rw [best_eq_topScoring, topScoring, List.mem_filter]
  refine and_congr_right fun hg => ?_
  simp only [decide_eq_true_eq, not_lt]
  constructor
  · intro hmax
    obtain ⟨p, hp, hscore⟩ := JointGroup.exists_score_eq (pairs_ne_nil hg)
    obtain ⟨hpairs, hresult⟩ := (mem_pairs_iff hg).1 hp
    refine ⟨p, hpairs, hresult, fun q hq => ?_⟩
    -- the pair is in the group of its result
    have hgroup : JointGroup.ofResult b.pairs q.result ∈ b.build.groups :=
      mem_groups_build_iff.2 ⟨q, hq, rfl⟩
    rw [hscore]
    exact (JointGroup.le_score ((mem_pairs_iff hgroup).2 ⟨hq, rfl⟩)).trans (hmax _ hgroup)
  · rintro ⟨p, hp, hresult, hmax⟩ h hh
    calc h.score
        ≤ p.score := JointGroup.score_le_iff.2 fun q hq => hmax q ((mem_pairs_iff hh).1 hq).1
      _ ≤ g.score := JointGroup.le_score ((mem_pairs_iff hg).2 ⟨hp, hresult⟩)

theorem best_build_eq_nil_iff : b.build.best = [] ↔ b.pairs = [] := by
  rw [best_eq_topScoring, topScoring_eq_nil_iff fun _ _ => beq_self_eq_true _,
    groups_build_eq_nil_iff]

theorem mem_results_best_iff (b : Builder base R) (r : R) :
    r ∈ b.build.best.map JointGroup.result ↔
      ∃ p ∈ b.pairs, p.result = r ∧ ∀ q ∈ b.pairs, q.score ≤ p.score := by
  simp only [List.mem_map, mem_best_iff]
  constructor
  · rintro ⟨g, ⟨-, hbest⟩, rfl⟩
    exact hbest
  · rintro ⟨p, hp, rfl, hmax⟩
    exact ⟨JointGroup.ofResult b.pairs p.result, ⟨mem_groups_build_iff.2 ⟨p, hp, rfl⟩, p, hp, rfl,
      hmax⟩, rfl⟩

/-- **The best results are those of the best pairs.**  They stand in the order in which results
first appeared, and there are some unless there are no pairs.  If no derivation scores more than its
mass, then neither does any group; and if all derivations of a group score what their mass is, then
the score of the group falls short of its mass by no more than the logarithm of their number. -/
theorem best_attains_maximum [ExpLog.Increasing] (b : Builder base R) :
    let j := b.build
    (∀ r, r ∈ j.best.map JointGroup.result ↔
        ∃ p ∈ b.pairs, p.result = r ∧ ∀ q ∈ b.pairs, q.score ≤ p.score) ∧
      (j.best.Sublist j.groups ∧
        j.groups.map JointGroup.result = (b.pairs.map JointPair.result).eraseDups) ∧
      (j.best = [] ↔ b.pairs = []) ∧
      ((∀ p ∈ b.pairs, p.derivation.score ≤ p.derivation.logInside) →
        ∀ g ∈ j.groups, g.score ≤ g.logInside) ∧
      ∀ g ∈ j.groups, (∀ p ∈ g.pairs, p.derivation.score = p.derivation.logInside) →
        g.logInside ≤ g.score + (ExpLog.log g.pairs.length : ℝ) := by
  intro j
  refine ⟨mem_results_best_iff b, ⟨?_, results_build b⟩, best_build_eq_nil_iff,
    fun hscore g hg => ?_, fun g hg hscore => ?_⟩
  · rw [best_eq_topScoring]
    exact List.filter_sublist
  · exact JointGroup.score_le_logInside fun p hp => hscore p ((mem_pairs_iff hg).1 hp).1
  · have hpos : (0 : ℝ) < g.pairs.length :=
      Nat.cast_pos.2 (List.length_pos_iff.2 (pairs_ne_nil hg))
    have hlog : LogScale.log ((g.pairs.length : ℝ) : LogReal) =
        ((ExpLog.log g.pairs.length : ℝ) : LogReal) := by
      rw [log_coe, ofMass, if_pos hpos]
    exact hlog ▸ JointGroup.logInside_le hscore

omit [ExpLog] in
/-- The best score of the crossed pairs is that of the first one, and no pair with the other result
reaches it. -/
theorem score_crossedPairs :
    ∀ p ∈ crossedPairs, p.score ≤ ((-1 + -1 / 2 : ℝ) : LogReal) ∧
      (p.result = "b" → p.score < ((-1 + -1 / 2 : ℝ) : LogReal)) := by
  have hA : ((-2 + -1 / 2 : ℝ) : LogReal) ≤ ((-1 + -1 / 2 : ℝ) : LogReal) :=
    WithBot.coe_le_coe.2 (by norm_num)
  have hB : ((-1 + -1 : ℝ) : LogReal) < ((-1 + -1 / 2 : ℝ) : LogReal) :=
    WithBot.coe_lt_coe.2 (by norm_num)
  have hB' : ((-2 + -1 : ℝ) : LogReal) < ((-1 + -1 / 2 : ℝ) : LogReal) :=
    WithBot.coe_lt_coe.2 (by norm_num)
  have hne : "a" ≠ "b" := by decide
  simp only [crossedPairs, List.mem_cons, List.not_mem_nil, or_false, forall_eq_or_imp, forall_eq]
  exact ⟨⟨le_rfl, fun h => absurd h hne⟩, ⟨hB'.le, fun _ => hB'⟩, ⟨hA, fun h => absurd h hne⟩,
    ⟨hB.le, fun _ => hB⟩⟩

omit [ExpLog] in
/-- Both readings score what their mass is, and the better one decides which result is best. -/
theorem best_attains_maximum_crossed :
    let _ := ExpLog.standard
    (∀ p ∈ crossed.pairs, p.derivation.score = p.derivation.logInside) ∧
      "a" ∈ crossed.build.best.map JointGroup.result ∧
      "b" ∉ crossed.build.best.map JointGroup.result ∧
      ∀ g ∈ crossed.build.groups, g.score ≤ g.logInside ∧
        g.logInside ≤ g.score + (Real.log g.pairs.length : ℝ) := by
  intro _
  have := ExpLog.increasing_standard
  obtain ⟨hresults, -, -, hle, hge⟩ := best_attains_maximum crossed
  have hsingle : ∀ p ∈ crossed.pairs, p.derivation.score = p.derivation.logInside := by
    simp only [crossed, crossedPairs, List.mem_cons, List.not_mem_nil, or_false, forall_eq_or_imp,
      forall_eq]
    exact ⟨rfl, rfl, rfl, rfl⟩
  refine ⟨hsingle, ?_, fun hb => ?_, fun g hg => ⟨?_, ?_⟩⟩
  · exact (hresults "a").2 ⟨_, List.mem_cons_self, rfl, fun q hq => (score_crossedPairs q hq).1⟩
  · obtain ⟨p, hp, hresult, hmax⟩ := (hresults "b").1 hb
    exact absurd (hmax _ List.mem_cons_self) (not_le.2 ((score_crossedPairs p hp).2 hresult))
  · exact hle (fun p hp => (hsingle p hp).le) g hg
  · exact hge g hg fun p hp => hsingle p ((mem_pairs_iff hg).1 hp).1

end Joint

end LogicalForms
