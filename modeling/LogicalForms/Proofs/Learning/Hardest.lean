import LogicalForms.Learning.Partition
import LogicalForms.Proofs.Score.Threshold

/-!
# Hard updates

Hard updates separate only the best of the accepted derivations.  These are found in one scan that
starts at the lowest score of what can happen, so it keeps the accepted derivations that no other
one outscores, as long as one of them scores more than −∞ (`Partition.valid_ofOutputs_hard`).  If
all score −∞, nothing is kept, although they tie (`Partition.valid_ofOutputs_hard_negInf`).
-/

namespace LogicalForms

variable {α δ : Type}

section Top

variable [LT α] [DecidableLT α] [BEq α] [OrderedScores α] {score : δ → α} {xs : List δ}

theorem not_lt_of_mem_topScoring {start : α} {x y : δ} (hstart : (start == start) = true)
    (hnum : ∀ x ∈ xs, (score x == score x) = true) (hx : x ∈ topScoring score xs) (hy : y ∈ xs)
    (hreach : ¬score y < start) : ¬score x < start := by
  obtain ⟨hmem, hmax⟩ := List.mem_filter.1 hx
  intro hlt
  exact of_decide_eq_true hmax y hy
    (score_lt_of_lt_of_not_lt (hnum x hmem) hstart (hnum y hy) hlt hreach)

end Top

namespace Partition

theorem hardest_eq_filter (view : δ → Derivation Float) {ds : List δ}
    (hnum : ∀ d ∈ ds, ((view d).score == (view d).score) = true) :
    hardest view ds = (topScoring (fun d => (view d).score) ds).filter fun d =>
      !ScoreRange.impossible (view d).score := by
  rw [hardest, scanFrom_eq_topScoring Double.lowest_beq_self hnum]
  refine List.filter_congr fun d hd => ?_
  rw [Bool.eq_iff_iff, decide_eq_true_iff,
    Double.lt_lowest_iff (hnum d (List.mem_of_mem_filter hd)), Bool.not_eq_true,
    Bool.not_eq_true']

/-- If one derivation scores more than −∞, then so do the best. -/
theorem hardest_eq_topScoring (view : δ → Derivation Float) {ds : List δ}
    (hnum : ∀ d ∈ ds, ((view d).score == (view d).score) = true)
    (h : ∃ d ∈ ds, ScoreRange.impossible (view d).score = false) :
    hardest view ds = topScoring (fun d => (view d).score) ds := by
  obtain ⟨d, hd, hscore⟩ := h
  rw [hardest_eq_filter view hnum, List.filter_eq_self]
  intro x hx
  have hreach : ¬(view d).score < ScoreRange.lowest := by
    rw [Double.lt_lowest_iff (hnum d hd), hscore]
    exact Bool.false_ne_true
  have htop := not_lt_of_mem_topScoring Double.lowest_beq_self hnum hx hd hreach
  rw [Double.lt_lowest_iff (hnum x (List.mem_of_mem_filter hx)), Bool.not_eq_true] at htop
  rw [htop, Bool.not_false]

theorem hardest_eq_nil (view : δ → Derivation Float) {ds : List δ}
    (hnum : ∀ d ∈ ds, ((view d).score == (view d).score) = true)
    (h : ¬∃ d ∈ ds, ScoreRange.impossible (view d).score = false) : hardest view ds = [] := by
  rw [hardest_eq_filter view hnum, List.filter_eq_nil_iff]
  intro x hx hscore
  exact h ⟨x, List.mem_of_mem_filter hx, by simpa using hscore⟩

/-- **Hard updates keep the best of the accepted derivations.**  They stand in order, and all that
tie for the highest score are among them.  But nothing is kept when that score is −∞. -/
theorem valid_ofOutputs_hard (view : δ → Derivation Float) (accepts : Term → Bool)
    (real good : List δ) (hnum : ∀ d ∈ good, ((view d).score == (view d).score) = true) :
    let accepted := good.filter fun d => accepts (view d).semantics
    let kept := (ofOutputs view accepts true real good).valid
    (kept = if ∃ d ∈ accepted, ScoreRange.impossible (view d).score = false then
        topScoring (fun d => (view d).score) accepted else []) ∧
      (kept ≠ [] ↔ ∃ d ∈ good, accepts (view d).semantics = true ∧
        ScoreRange.impossible (view d).score = false) := by
  intro accepted kept
  have hnum' : ∀ d ∈ accepted, ((view d).score == (view d).score) = true :=
    fun d hd => hnum d (List.mem_of_mem_filter hd)
  have hpossible : (∃ d ∈ good, accepts (view d).semantics = true ∧
      ScoreRange.impossible (view d).score = false) ↔
        ∃ d ∈ accepted, ScoreRange.impossible (view d).score = false := by
    simp only [accepted, List.mem_filter, and_assoc]
  rw [hpossible]
  split_ifs with h
  · have htop : kept = topScoring (fun d => (view d).score) accepted :=
      hardest_eq_topScoring view hnum' h
    refine ⟨htop, iff_of_true ?_ h⟩
    obtain ⟨d, hd, -⟩ := h
    rw [htop, Ne, topScoring_eq_nil_iff hnum']
    exact List.ne_nil_of_mem hd
  · have hnil : kept = [] := hardest_eq_nil view hnum' h
    exact ⟨hnil, iff_of_false (not_not.2 hnil) h⟩

/-! ### Readings at the limits -/

/-- Whether the logical forms of some readings are right, and their scores. -/
def extremeScores : List (Bool × Float) :=
  [(true, -(1 / 0)), (true, ScoreRange.lowest), (false, 1 / 0), (true, 3), (true, 3)]

/-- The constant that stands for a right or wrong logical form. -/
def verdict (right : Bool) : Term := .const ⟨if right then "right" else "wrong", .atom "t"⟩

/-- The readings with `extremeScores`, by position. -/
def extremeReading (i : ℕ) : Derivation Float :=
  let (right, score) := extremeScores.getD i (false, 0)
  .single (verdict right) score ∅

/-- Among all of them, the two right ones with a score of 3 are kept. -/
theorem valid_ofOutputs_hard_extreme :
    (∀ i ∈ [0, 1, 2, 3, 4],
      ((extremeReading i).score == (extremeReading i).score) = true) ∧
    (ofOutputs extremeReading (· == verdict true) true [] [0, 1, 2, 3, 4]).valid = [3, 4] := by
  have hnum : ∀ i ∈ [0, 1, 2, 3, 4],
      ((extremeReading i).score == (extremeReading i).score) = true := by decide +kernel
  have hkept := (valid_ofOutputs_hard extremeReading (· == verdict true) [] _ hnum).1
  exact ⟨hnum, hkept.trans (by decide +kernel)⟩

/-- The first one by itself has the highest score, but it is not kept. -/
theorem valid_ofOutputs_hard_negInf :
    ((extremeReading 0).score == (extremeReading 0).score) = true ∧
    topScoring (fun i => (extremeReading i).score)
      ([0].filter fun i => (extremeReading i).semantics == verdict true) = [0] ∧
    (ofOutputs extremeReading (· == verdict true) true [] [0]).valid = [] := by
  decide +kernel

end Partition

end LogicalForms
