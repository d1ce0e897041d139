import LogicalForms.Learning.Update
import Mathlib.Tactic.Common

/-!
# Notes

What training writes into the statistics is a list of notes.  A note is written by an operation that
fails where the number of epochs overflows, which is for `lastEpoch` only, as no word of 64 bits
follows it (`LearningStats.write_eq`).  Apart from that, writing a note means to enter it
(`LearningStats.enter`).

* `LearningStats.mem_marked_enterAll` — a visit has the marks that are noted.
* `LearningStats.epochs_enterAll_le_iff` — the epochs are counted up to the largest one that is
  noted.
-/

namespace LogicalForms

variable {S α : Type}

/-- What can be noted about a visit. -/
inductive Mark where
  /-- The item has a valid parse. -/
  | validParse
  /-- There was an update. -/
  | update
  /-- The item was skipped. -/
  | skipped
  deriving DecidableEq

/-- What can be noted during training. -/
inductive Note where
  /-- An epoch begins. -/
  | beginEpoch (epoch : Nat)
  /-- A visit gets a mark. -/
  | mark (m : Mark) (v : Visit)

/-- The epoch of a note. -/
def Note.epoch : Note → Nat
  | .beginEpoch epoch => epoch
  | .mark _ v => v.epoch

/-- The epoch that no word of 64 bits follows. -/
def lastEpoch : Nat := UInt64.size - 1

theorem lt_lastEpoch_iff {epoch : Nat} : epoch < lastEpoch ↔ epoch + 1 < UInt64.size :=
  Nat.lt_sub_iff_add_lt

namespace LearningStats

variable {stats : LearningStats} {notes : List Note} {m : Mark} {v : Visit} {k : Nat}

/-- The visits with a mark. -/
def marked (stats : LearningStats) : Mark → VisitSet
  | .validParse => stats.hasValidParse
  | .update => stats.triggeredUpdate
  | .skipped => stats.skipped

/-- Gives a mark to a visit. -/
def addMark (stats : LearningStats) (v : Visit) : Mark → LearningStats
  | .validParse => { stats with hasValidParse := stats.hasValidParse.insert v }
  | .update => { stats with triggeredUpdate := stats.triggeredUpdate.insert v }
  | .skipped => { stats with skipped := stats.skipped.insert v }

/-! ### Writing and entering -/

/-- Writes a note, by the operation that there is for it. -/
def write (stats : LearningStats) : Note → Option LearningStats
  | .beginEpoch epoch => stats.beginEpoch epoch
  | .mark .validParse v => stats.recordValidParse v
  | .mark .update v => stats.recordUpdate v
  | .mark .skipped v => stats.recordSkipped v

/-- Enters a note. -/
def enter (stats : LearningStats) (note : Note) : LearningStats :=
  let stats := { stats with epochs := max stats.epochs (note.epoch + 1) }
  match note with
  | .beginEpoch _ => stats
  | .mark m v => stats.addMark v m

/-- Enters notes in order. -/
def enterAll (stats : LearningStats) (notes : List Note) : LearningStats := notes.foldl enter stats

/-- **A note is entered, unless the number of epochs overflows.** -/
theorem write_eq (stats : LearningStats) (note : Note) :
    stats.write note = if note.epoch < lastEpoch then some (stats.enter note) else none := by
  have hbegin : stats.beginEpoch note.epoch =
      if note.epoch < lastEpoch then
        some { stats with epochs := max stats.epochs (note.epoch + 1) }
      else none := by
    simp only [beginEpoch, lt_lastEpoch_iff]
  split_ifs at hbegin ⊢
  all_goals
    rcases note with epoch | ⟨_ | _ | _, v⟩
    · exact hbegin
    all_goals exact congrArg (Option.bind · _) hbegin

theorem enterAll_append (stats : LearningStats) (notes notes' : List Note) :
    stats.enterAll (notes ++ notes') = (stats.enterAll notes).enterAll notes' :=
  List.foldl_append

/-! ### What is entered -/

theorem mem_marked_enter {note : Note} :
    v ∈ (stats.enter note).marked m ↔ v ∈ stats.marked m ∨ note = .mark m v := by
  cases note with
  | beginEpoch epoch => cases m <;> simp [enter, marked]
  | mark m' w =>
    cases m' <;> cases m <;> simp [enter, addMark, marked, eq_comm, or_comm]

/-- **The visits with a mark are those that had it and those that are noted.** -/
theorem mem_marked_enterAll :
    v ∈ (stats.enterAll notes).marked m ↔ v ∈ stats.marked m ∨ .mark m v ∈ notes := by
  induction notes generalizing stats with
  | nil => simp [enterAll]
  | cons note notes ih =>
    change v ∈ ((stats.enter note).enterAll notes).marked m ↔ _
    rw [ih, mem_marked_enter, List.mem_cons, or_assoc, eq_comm (a := note)]

theorem mem_marked_enterAll_empty :
    v ∈ (enterAll {} notes).marked m ↔ .mark m v ∈ notes := by
  rw [mem_marked_enterAll, or_iff_right]
  cases m <;> exact VisitSet.not_mem_empty v

theorem epochs_enter (stats : LearningStats) (note : Note) :
    (stats.enter note).epochs = max stats.epochs (note.epoch + 1) := by
  rcases note with epoch | ⟨_ | _ | _, v⟩ <;> rfl

/-- **Epochs are counted up to the largest one that is noted.** -/
theorem epochs_enterAll_le_iff :
    (stats.enterAll notes).epochs ≤ k ↔ stats.epochs ≤ k ∧ ∀ note ∈ notes, note.epoch < k := by
  induction notes generalizing stats with
  | nil => simp [enterAll]
  | cons note notes ih =>
    change ((stats.enter note).enterAll notes).epochs ≤ k ↔ _
    rw [ih, epochs_enter, Nat.max_le, Nat.succ_le_iff, List.forall_mem_cons, and_assoc]

theorem epochs_le_epochs_enterAll (stats : LearningStats) (notes : List Note) :
    stats.epochs ≤ (stats.enterAll notes).epochs :=
  (epochs_enterAll_le_iff.1 (Nat.le_refl _)).1

theorem epoch_lt_epochs_enterAll {note : Note} (h : note ∈ notes) :
    note.epoch < (stats.enterAll notes).epochs :=
  (epochs_enterAll_le_iff.1 (Nat.le_refl _)).2 note h

end LearningStats

namespace Progress

/-- Enters a note in the statistics. -/
def enter (p : Progress S α) (note : Note) : Progress S α :=
  { p with stats := p.stats.enter note }

theorem record_write (p : Progress S α) (note : Note) :
    p.record (·.write note) =
      if note.epoch < lastEpoch then (.ok (), p.enter note) else (.error .overflow, p) := by
  rw [record, LearningStats.write_eq]
  split_ifs <;> rfl

end Progress

end LogicalForms
