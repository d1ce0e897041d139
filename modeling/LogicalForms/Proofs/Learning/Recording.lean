import LogicalForms.Proofs.Learning.Statistics
import Mathlib.Algebra.BigOperators.Group.Finset.Piecewise
import Mathlib.Data.Finset.Lattice.Fold
import Mathlib.Order.Lattice.Nat

/-!
# What the statistics keep

Notes can be written in any order and with any numbers.  All of them are written, unless one is of
the last epoch: then the number of epochs overflows, and writing stops there
(`LearningStats.writeAll_eq_none_iff`).  What is written is kept: every visit that gets a mark is in
a counted epoch, and the numbers of the counted epochs (`VisitSet.sum_countIn`) add up to the visits
that were given the mark (`LearningStats.writeAll_keeps`).
-/

namespace LogicalForms

open Finset

/-! ### The sum over the epochs -/

/-- **Each visit of one of the first epochs is counted in one of them.** -/
theorem VisitSet.sum_countIn (s : VisitSet) (n : ℕ) :
    ∑ epoch ∈ range n, s.countIn epoch = s.visits.countP fun v => v.epoch < n := by
  unfold countIn
  induction s.visits with
  | nil => simp
  | cons v vs ih =>
    have hone : ∑ epoch ∈ range n, (if v.epoch = epoch then 1 else 0) =
        if v.epoch < n then 1 else 0 := by
      simp
    simp only [List.countP_cons, decide_eq_true_eq, sum_add_distrib, ih, hone]

/-! ### Visits that are given a mark -/

/-- The visits to which the notes give a mark. -/
def recorded (m : Mark) (notes : List Note) : Finset Visit :=
  (notes.filterMap fun
    | .beginEpoch _ => none
    | .mark m' v => if m' = m then some v else none).toFinset

/-- The number of visits with a mark. -/
def EpochStats.number (e : EpochStats) : Mark → ℕ
  | .validParse => e.hasValidParse
  | .update => e.triggeredUpdate
  | .skipped => e.skipped

theorem mem_recorded_iff {m : Mark} {notes : List Note} {v : Visit} :
    v ∈ recorded m notes ↔ .mark m v ∈ notes := by
  simp only [recorded, List.mem_toFinset, List.mem_filterMap]
  constructor
  · rintro ⟨_ | ⟨m', w⟩, hnote, h⟩
    · cases h
    · obtain ⟨rfl, rfl⟩ : m' = m ∧ w = v := by simpa using h
      exact hnote
  · intro h
    exact ⟨_, h, by simp⟩

namespace LearningStats

variable {stats stats' : LearningStats} {notes : List Note} {m : Mark} {v : Visit}

theorem number_epoch (stats : LearningStats) (epoch : ℕ) (m : Mark) :
    (stats.epoch epoch).number m = (stats.marked m).countIn epoch := by
  cases m <;> rfl

/-! ### Writing notes -/

/-- Writes notes in order, as long as the number of epochs does not overflow. -/
def writeAll (stats : LearningStats) (notes : List Note) : Option LearningStats :=
  notes.foldlM write stats

theorem writeAll_cons (stats : LearningStats) (note : Note) (notes : List Note) :
    stats.writeAll (note :: notes) =
      if note.epoch < lastEpoch then (stats.enter note).writeAll notes else none := by
  rw [writeAll, List.foldlM_cons, write_eq]
  split_ifs <;> rfl

/-- **Notes are entered, unless there is no room for the epoch of one of them.** -/
theorem writeAll_eq_some_iff :
    stats.writeAll notes = some stats' ↔
      (∀ note ∈ notes, note.epoch < lastEpoch) ∧ stats.enterAll notes = stats' := by
  induction notes generalizing stats with
  | nil => simp [writeAll, enterAll]
  | cons note notes ih =>
    rw [writeAll_cons, List.forall_mem_cons]
    split_ifs with hepoch
    · rw [ih, and_iff_right hepoch]
      rfl
    · simp [hepoch]

theorem writeAll_eq_none_iff :
    stats.writeAll notes = none ↔ ∃ note ∈ notes, lastEpoch ≤ note.epoch := by
  rw [Option.eq_none_iff_forall_ne_some]
  simp only [ne_eq, writeAll_eq_some_iff, not_and]
  constructor
  · intro h
    by_contra hnone
    simp only [not_exists, not_and, Nat.not_le] at hnone
    exact h _ hnone rfl
  · rintro ⟨note, hnote, hlast⟩ _ hepochs
    exact absurd (hepochs note hnote) (Nat.not_lt_of_le hlast)

/-- **The number of epochs** follows the largest epoch that is noted. -/
theorem epochs_enterAll_eq_sup (notes : List Note) :
    (enterAll {} notes).epochs = (notes.map Note.epoch).toFinset.sup (· + 1) := by
  refine eq_of_forall_ge_iff fun k => ?_
  rw [epochs_enterAll_le_iff, and_iff_right (Nat.zero_le k), Finset.sup_le_iff]
  simp only [List.mem_toFinset, List.forall_mem_map, Nat.succ_le_iff]

/-- **The numbers of the counted epochs add up** to the visits that the notes give the mark to. -/
theorem sum_number_epoch (notes : List Note) (m : Mark) :
    ∑ epoch ∈ range (enterAll {} notes).epochs, ((enterAll {} notes).epoch epoch).number m =
      #(recorded m notes) := by
  simp only [number_epoch]
  set kept := (enterAll {} notes).marked m with hkept
  have hmem : ∀ v, v ∈ kept.visits ↔ .mark m v ∈ notes := fun v => mem_marked_enterAll_empty
  -- no visit that is kept is in a later epoch
  have hall : kept.visits.countP (fun v => v.epoch < (enterAll {} notes).epochs) =
      kept.visits.length := by
    rw [List.countP_eq_length]
    exact fun v hv => decide_eq_true (epoch_lt_epochs_enterAll ((hmem v).1 hv))
  rw [VisitSet.sum_countIn, hall, ← List.toFinset_card_of_nodup kept.nodup]
  congr 1
  ext v
  rw [List.mem_toFinset, hmem, mem_recorded_iff]

/-- **What the statistics keep of any notes.**  Writing them fails exactly if one of them is of the
last epoch, or of a later one that no word could hold.  Otherwise the number of epochs follows the
largest epoch that is noted, and more notes do not lower it.  Exactly the visits that are given a
mark have it, they are in counted epochs, for each of which there is a line of text, and the numbers
of these epochs add up to the visits that were given the mark, each counted once. -/
theorem writeAll_keeps (notes : List Note) :
    (writeAll {} notes = none ↔ ∃ note ∈ notes, lastEpoch ≤ note.epoch) ∧
      ∀ stats, writeAll {} notes = some stats →
        (∀ notes' stats', stats.writeAll notes' = some stats' → stats.epochs ≤ stats'.epochs) ∧
        stats.epochs = (notes.map Note.epoch).toFinset.sup (· + 1) ∧
        (∀ m v, v ∈ stats.marked m ↔ .mark m v ∈ notes) ∧
        (∀ m, ∀ v ∈ stats.marked m, v.epoch < stats.epochs) ∧
        (∀ m, ∑ epoch ∈ range stats.epochs, (stats.epoch epoch).number m = #(recorded m notes)) ∧
        stats.render = String.join ((List.range stats.epochs).map fun epoch =>
          s!"epoch {epoch}: {(stats.epoch epoch).render}\n") := by
  refine ⟨writeAll_eq_none_iff, fun stats hstats => ?_⟩
  obtain ⟨-, rfl⟩ := writeAll_eq_some_iff.1 hstats
  have hmarked : ∀ m v, v ∈ (enterAll {} notes).marked m ↔ .mark m v ∈ notes := fun m v =>
    mem_marked_enterAll_empty
  refine ⟨fun notes' stats' hstats' => ?_, epochs_enterAll_eq_sup notes, hmarked, fun m v hv => ?_,
    sum_number_epoch notes, rfl⟩
  · obtain ⟨-, rfl⟩ := writeAll_eq_some_iff.1 hstats'
    exact epochs_le_epochs_enterAll _ notes'
  · exact epoch_lt_epochs_enterAll ((hmarked m v).1 hv)

/-- Two marks of one visit, a late epoch, and the same update twice. -/
def lateNotes : List Note :=
  [.mark .validParse ⟨2, 1⟩, .mark .update ⟨2, 1⟩, .beginEpoch (lastEpoch - 1),
    .mark .update ⟨2, 1⟩]

theorem writeAll_keeps_late :
    ∃ stats, writeAll {} lateNotes = some stats ∧ stats.epochs = lastEpoch ∧
      ∑ epoch ∈ range stats.epochs, (stats.epoch epoch).triggeredUpdate = 1 := by
  obtain ⟨hfails, hkeeps⟩ := writeAll_keeps lateNotes
  cases hstats : writeAll {} lateNotes with
  | none => exact absurd (hfails.1 hstats) (by decide)
  | some stats =>
    obtain ⟨-, hepochs, -, -, hsum, -⟩ := hkeeps stats hstats
    exact ⟨stats, rfl, hepochs.trans (by decide), (hsum .update).trans (by decide)⟩

/-- **A visit in the last epoch cannot be recorded**, although its epoch is a word of 64 bits. -/
theorem recordValidParse_lastEpoch :
    lastEpoch < UInt64.size ∧ recordValidParse {} ⟨0, lastEpoch⟩ = none := by
  decide

end LearningStats

end LogicalForms
