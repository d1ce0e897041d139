import LogicalForms.Proofs.Score.Threshold
import LogicalForms.Score.LogSum

/-!
# The largest score

The largest of several scores is looked for from −∞ on (`largest`), so −∞ comes out when there is no
score at all.  As nothing is below −∞ (`Double.not_lt_negInf`), this start makes no difference to
who is found with the largest score: these are the members that no member outscores
(`topScoring_eq_filter_largest`), whether or not they score −∞ themselves.
-/

namespace LogicalForms

variable {α β : Type}

section Largest

variable [LT α] [DecidableLT α] [BEq α] [OrderedScores α] [LogScale α] {score : β → α} {xs : List β}

/-- **The members that no member outscores tie for the largest score.** -/
theorem topScoring_eq_filter_largest (hnum : ∀ x ∈ xs, (score x == score x) = true)
    (hnegInf : ((LogScale.negInf : α) == LogScale.negInf) = true)
    (hlowest : ∀ x ∈ xs, ¬score x < LogScale.negInf) :
    topScoring score xs = xs.filter fun x => score x == largest (xs.map score) := by
  obtain rfl | hnil := eq_or_ne xs []
  · rfl
  have hall : ∀ y ∈ LogScale.negInf :: xs.map score, (y == y) = true := by
    simp only [List.forall_mem_cons, List.forall_mem_map]
    exact ⟨hnegInf, hnum⟩
  obtain ⟨hmem, hbound⟩ := foldl_larger_spec hall
  have htop : (largest (xs.map score) == largest (xs.map score)) = true := hall _ hmem
  have hbound' : ∀ x ∈ xs, ¬largest (xs.map score) < score x := fun x hx =>
    hbound _ (List.mem_cons_of_mem _ (List.mem_map_of_mem hx))
  refine topScoring_eq_filter hnum htop hbound' ?_
  rcases List.mem_cons.1 hmem with hstart | hscore
  · -- the search has not left −∞, so that is what everybody scores
    obtain ⟨x, hx⟩ := List.exists_mem_of_ne_nil xs hnil
    refine ⟨x, hx, (score_beq_iff (hnum x hx) htop).2 ⟨?_, hbound' x hx⟩⟩
    rw [largest, hstart]
    exact hlowest x hx
  · obtain ⟨x, hx, heq⟩ := List.mem_map.1 hscore
    refine ⟨x, hx, ?_⟩
    rw [heq]
    exact htop

end Largest

namespace Double

/-- **Nothing is below −∞.** -/
theorem not_lt_negInf {x : Float} (hx : (x == x) = true) : ¬x < -(1 / 0) := by
  intro hlt
  have hlowest : (-(1 / 0) : Float) < ScoreRange.lowest :=
    (lt_lowest_iff negInf_beq_self).2 negInf_beq_self
  have hbeq : (x == -(1 / 0)) = true :=
    (lt_lowest_iff hx).1 (score_lt_trans hx negInf_beq_self lowest_beq_self hlt hlowest)
  exact ((score_beq_iff hx negInf_beq_self).1 hbeq).1 hlt

end Double

end LogicalForms
