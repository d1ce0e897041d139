import LogicalForms.Proofs.Score.Order
import Mathlib.Data.List.ReduceOption

/-!
# Scores to reach

A scan that starts with nothing but a score to reach (`scanFrom`) keeps what a scan for the best
keeps, less the members below that score (`scanFrom_eq_topScoring`).  For the proof, the score to
reach is taken for that of one more member.

The lowest score of what can happen is above −∞ alone (`Double.lt_lowest_iff`), so a scan that
starts there lacks nothing but what scores −∞.
-/

namespace LogicalForms

variable {α β : Type}

/-! ### One more member -/

/-- The scores of members; the absent one has the score to reach. -/
def scoreOr (start : α) (score : β → α) (x : Option β) : α := (x.map score).getD start

section Scan

variable [LT α] [DecidableLT α] [BEq α] {score : β → α} {start : α}

theorem scanStep_reduceOption (start : α) (score : β → α) (kept : α × List (Option β)) (x : β) :
    Prod.map id List.reduceOption (scanStep (scoreOr start score) kept (some x)) =
      scanStep score (kept.1, kept.2.reduceOption) x := by
  obtain ⟨top, xs⟩ := kept
  change Prod.map id List.reduceOption
    (if top < score x then (score x, [some x])
      else if score x == top then (top, xs ++ [some x]) else (top, xs)) = _
  unfold scanStep
  split_ifs <;> simp [List.reduceOption_append]

theorem foldl_scanStep_reduceOption (kept : α × List (Option β)) (xs : List β) :
    ((xs.map some).foldl (scanStep (scoreOr start score)) kept).2.reduceOption =
      (xs.foldl (scanStep score) (kept.1, kept.2.reduceOption)).2 := by
  induction xs generalizing kept with
  | nil => rfl
  | cons x xs ih =>
    rw [List.map_cons, List.foldl_cons, List.foldl_cons, ih,
      ← scanStep_reduceOption start score kept x]
    rfl

/-- A score to reach is like a first member that has it and is dropped in the end. -/
theorem scanFrom_eq_scanBest (start : α) (score : β → α) (xs : List β) :
    scanFrom start score xs =
      (scanBest (scoreOr start score) (none :: xs.map some)).reduceOption :=
  (foldl_scanStep_reduceOption (start, [none]) xs).symm

omit [BEq α] in
theorem reduceOption_topScoring (start : α) (score : β → α) (xs : List β) :
    (topScoring (scoreOr start score) (none :: xs.map some)).reduceOption =
      (topScoring score xs).filter fun x => ¬score x < start := by
  have hmap : ∀ ys : List β, (ys.map some).reduceOption = ys := by simp [List.reduceOption]
  have hfilter : (xs.map some).filter (fun x => ∀ y ∈ none :: xs.map some,
      ¬scoreOr start score x < scoreOr start score y) =
        ((topScoring score xs).filter fun x => ¬score x < start).map some := by
    rw [List.filter_map, topScoring, List.filter_filter]
    refine congrArg (List.map some) (List.filter_congr fun x _ => ?_)
    rw [Function.comp_apply, Bool.eq_iff_iff, Bool.and_eq_true, decide_eq_true_iff,
      decide_eq_true_iff, decide_eq_true_iff]
    simp [scoreOr]
  rw [topScoring, List.filter_cons, hfilter]
  split_ifs
  · rw [List.reduceOption_cons_of_none, hmap]
  · rw [hmap]

variable [OrderedScores α]

/-- **A scan from a score keeps the members that no member outscores**, if they reach it. -/
theorem scanFrom_eq_topScoring {xs : List β} (hstart : (start == start) = true)
    (hnum : ∀ x ∈ xs, (score x == score x) = true) :
    scanFrom start score xs = (topScoring score xs).filter fun x => ¬score x < start := by
  have hall : ∀ x ∈ none :: xs.map some,
      (scoreOr start score x == scoreOr start score x) = true := by
    simp only [List.forall_mem_cons, List.forall_mem_map]
    exact ⟨hstart, hnum⟩
  rw [scanFrom_eq_scanBest, scanBest_eq_topScoring hall, reduceOption_topScoring]

end Scan

/-! ### The lowest score -/

namespace Double

open Float.Model

theorem finite_bounds {b : BitVec Format.binary64.numBits} {s : UnpackedFloat.Sign} {m : ℕ}
    {e : ℤ} {hm : 0 < m} (h : UnpackedFloat.unpack .binary64 b = .finite s m e hm) :
    m < 2 ^ 53 ∧ e ≤ 971 := by
  have hbias : (Format.binary64.exponentBias : ℤ) = 1023 := rfl
  have hbits : (Format.binary64.mantissaBitsWithoutImplicit : ℤ) = 52 := rfl
  have hmantissa : (UnpackedFloat.unpackMantissa b).toNat < 2 ^ 52 :=
    (UnpackedFloat.unpackMantissa b).isLt
  have hexponent : (UnpackedFloat.unpackExponent b).toNat < 2 ^ 11 :=
    (UnpackedFloat.unpackExponent b).isLt
  unfold UnpackedFloat.unpack at h
  dsimp only at h
  rw [hbias, hbits] at h
  split_ifs at h with hinfinite hnan hsubnormal hzero
  · obtain ⟨-, rfl, rfl⟩ := UnpackedFloat.finite.inj h
    rw [hsubnormal]
    exact ⟨by omega, by decide⟩
  · obtain ⟨-, rfl, rfl⟩ := UnpackedFloat.finite.inj h
    have hne : (UnpackedFloat.unpackExponent b).toNat ≠ 2 ^ 11 - 1 :=
      fun heq => hinfinite (BitVec.eq_of_toNat_eq heq)
    exact ⟨(1#1 ++ UnpackedFloat.unpackMantissa b).isLt, by omega⟩

theorem lowest_beq_self : ((ScoreRange.lowest : Float) == ScoreRange.lowest) = true := by
  decide +kernel

theorem negInf_beq_self : (-(1 / 0 : Float) == -(1 / 0)) = true := by decide +kernel

theorem rank_lowest : rank (ScoreRange.lowest : Float).toModel.unpack =
    toLex (-1, toLex (-971, -(2 ^ 53 - 1))) := by
  decide +kernel

theorem rank_negInf : rank (-(1 / 0) : Float).toModel.unpack = toLex (-2, toLex (0, 0)) := by
  decide +kernel

theorem unpack_ne_notANumber {x : Float} (hx : (x == x) = true) :
    x.toModel.unpack ≠ .notANumber :=
  ne_notANumber_of_beq_self hx

/-- **Only −∞ is below the lowest score.** -/
theorem lt_lowest_iff {x : Float} (hx : (x == x) = true) :
    x < ScoreRange.lowest ↔ ScoreRange.impossible x = true := by
  have hx' : x.toModel.unpack ≠ .notANumber := unpack_ne_notANumber hx
  have hlt : x < ScoreRange.lowest ↔
      rank x.toModel.unpack < toLex (-1, toLex (-971, -(2 ^ 53 - 1))) := by
    rw [lt_iff, lt_iff_rank hx' (unpack_ne_notANumber lowest_beq_self), rank_lowest]
  have himpossible : ScoreRange.impossible x = true ↔
      rank x.toModel.unpack = toLex (-2, toLex (0, 0)) := by
    rw [← rank_negInf]
    exact beq_iff_rank hx' (unpack_ne_notANumber negInf_beq_self)
  rw [hlt, himpossible]
  rcases hu : x.toModel.unpack with (_ | _) | _ | _ | ⟨_ | _, m, e, hm⟩
  · simp [rank, Prod.Lex.toLex_lt_toLex]
  · simp [rank, Prod.Lex.toLex_lt_toLex]
  · exact absurd hu hx'
  · simp [rank, Prod.Lex.toLex_lt_toLex]
  · have := finite_bounds hu
    simp [rank, Prod.Lex.toLex_lt_toLex]
    omega
  · simp [rank, Prod.Lex.toLex_lt_toLex]

end Double

end LogicalForms
