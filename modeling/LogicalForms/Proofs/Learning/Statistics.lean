import LogicalForms.Proofs.Learning.Accounts
import LogicalForms.Proofs.Learning.Course
import Mathlib.Data.List.Perm.Subperm

/-!
# The statistics of a run

`Learner.Tallied` ties the statistics to the tasks that are done: the skipped visits are those of
items that the filter rejects, a visit with a valid parse is one of an accepted item, and an update
is only recorded after a valid parse.  It follows from what a single visit can note down
(`Learner.notes_visited`), because the notes of a course are those of its tasks
(`Learner.tallied_course`).

Since a schedule names each visit once, the numbers of an epoch add up
(`Learner.train_stats_consistent`).
-/

namespace LogicalForms

variable {Item S L α W : Type}

/-! ### Counting visits -/

namespace VisitSet

variable {s t : VisitSet} {epoch n : Nat}

theorem nodup (s : VisitSet) : s.visits.Nodup := by
  refine List.Pairwise.imp (fun {v w} h => ?_) s.ascending
  rintro rfl
  exact Visit.lt_irrefl v h

theorem countIn_eq_length (s : VisitSet) (epoch : Nat) :
    s.countIn epoch = (s.visits.filter fun v => v.epoch = epoch).length :=
  List.countP_eq_length_filter

theorem countIn_le_countIn (h : ∀ v ∈ s, v ∈ t) : s.countIn epoch ≤ t.countIn epoch := by
  rw [countIn_eq_length, countIn_eq_length]
  have hsubset : (s.visits.filter fun v => v.epoch = epoch) ⊆
      t.visits.filter fun v => v.epoch = epoch := by
    intro v hv
    obtain ⟨hmem, hepoch⟩ := List.mem_filter.1 hv
    exact List.mem_filter.2 ⟨h v hmem, hepoch⟩
  exact (List.Nodup.subperm (s.nodup.filter _) hsubset).length_le

/-- Two sets without common visits have at most one visit for each item in an epoch. -/
theorem countIn_add_countIn_le (hdisjoint : ∀ v ∈ s, v ∉ t) (hs : ∀ v ∈ s, v.item < n)
    (ht : ∀ v ∈ t, v.item < n) : s.countIn epoch + t.countIn epoch ≤ n := by
  rw [countIn_eq_length, countIn_eq_length, ← List.length_append]
  have hnodup : ((s.visits.filter fun v => v.epoch = epoch) ++
      t.visits.filter fun v => v.epoch = epoch).Nodup := by
    refine List.nodup_append.2 ⟨s.nodup.filter _, t.nodup.filter _, fun v hv w hw hvw => ?_⟩
    exact hdisjoint v (List.mem_filter.1 hv).1 (hvw ▸ (List.mem_filter.1 hw).1)
  have hsubset : ((s.visits.filter fun v => v.epoch = epoch) ++
      t.visits.filter fun v => v.epoch = epoch) ⊆ (List.range n).map fun i => ⟨i, epoch⟩ := by
    intro v hv
    have hmem : v.epoch = epoch ∧ v.item < n := by
      rcases List.mem_append.1 hv with hv | hv
      · obtain ⟨hmem, hepoch⟩ := List.mem_filter.1 hv
        exact ⟨of_decide_eq_true hepoch, hs v hmem⟩
      · obtain ⟨hmem, hepoch⟩ := List.mem_filter.1 hv
        exact ⟨of_decide_eq_true hepoch, ht v hmem⟩
    exact List.mem_map.2 ⟨v.item, List.mem_range.2 hmem.2, by rw [← hmem.1]⟩
  calc _ ≤ ((List.range n).map fun i => (⟨i, epoch⟩ : Visit)).length :=
        (List.Nodup.subperm hnodup hsubset).length_le
    _ = n := by rw [List.length_map, List.length_range]

theorem length_eq_of_mem_iff {vs : List Visit} (hvs : vs.Nodup) (h : ∀ v, v ∈ s ↔ v ∈ vs) :
    s.visits.length = vs.length :=
  ((List.perm_ext_iff_of_nodup s.nodup hvs).2 h).length_eq

end VisitSet

namespace Learner

/-! ### What a task notes down -/

section Notes

variable [Zero α] [One α] [Add α] [Neg α] [Mul α] [Div α] [NatCast α] [LT α] [DecidableLT α] [LE α]
  [DecidableLE α] [BEq α] [OfScientific α] [ScoreRange α]
  {l : Learner (StateM W) Item S L α} {item : Item} {model : Model S α} {w : W} {t : Task Item}

/-- **All that a visit can note down**: that the item was skipped, if the filter rejects it, and
else nothing, a valid parse, or an update after a valid parse. -/
theorem notes_visited (l : Learner (StateM W) Item S L α) (item : Item) (model : Model S α)
    (w : W) :
    (l.accepts item = false ∧ (l.visited item model w).notes = [.skipped]) ∨
      (l.accepts item = true ∧ ((l.visited item model w).notes = [] ∨
        (l.visited item model w).notes = [.validParse] ∨
        (l.visited item model w).notes = [.validParse, .update])) := by
  rw [visited]
  split_ifs with haccepts
  · refine .inr ⟨haccepts, ?_⟩
    rcases exec (l.outputs item) (⟨model, {}⟩, w) with ⟨e | ⟨real, good⟩, p, w'⟩
    · exact .inl rfl
    · have hparse : l.parseMarks item real good = [] ∨
          l.parseMarks item real good = [.validParse] := by
        rw [parseMarks]
        split_ifs
        · exact .inl rfl
        · exact .inr rfl
      simp only
      rcases hproposed : proposedUpdate l.params (l.isValid item) real good p.model with
        e | _ | update
      · exact hparse.imp_right .inl
      · exact hparse.imp_right .inl
      · -- an update is only made when there is a valid parse
        have hvalid : l.parseMarks item real good = [.validParse] := by
          rw [parseMarks, if_neg]
          intro h
          rw [proposedUpdate_of_noneValid h] at hproposed
          cases hproposed
        exact .inr (.inr (by rw [hvalid]; rfl))
  · exact .inl ⟨eq_false_of_ne_true haccepts, rfl⟩

theorem mark_mem_notes_outcome {m : Mark} {v : Visit} :
    .mark m v ∈ (l.outcome t model w).notes ↔
      ∃ item, t = .visit item v ∧ m ∈ (l.visited item model w).notes := by
  cases t with
  | beginEpoch epoch => simp [outcome]
  | visit item u =>
    simp only [outcome, Outcome.mapNotes, List.mem_map, Note.mark.injEq, Task.visit.injEq]
    constructor
    · rintro ⟨m', hm, rfl, rfl⟩
      exact ⟨item, ⟨rfl, rfl⟩, hm⟩
    · rintro ⟨_, ⟨rfl, rfl⟩, hm⟩
      exact ⟨m, hm, rfl, rfl⟩

theorem epoch_of_mem_notes_outcome {note : Note} (h : note ∈ (l.outcome t model w).notes) :
    note.epoch = t.epoch := by
  cases note with
  | beginEpoch epoch =>
    cases t with
    | beginEpoch epoch' =>
      cases List.mem_singleton.1 h
      rfl
    | visit item v => simp [outcome, Outcome.mapNotes] at h
  | mark m v =>
    obtain ⟨item, rfl, -⟩ := mark_mem_notes_outcome.1 h
    rfl

end Notes

/-! ### What the tasks leave in the statistics -/

/-- The statistics are those of a learner that has done these tasks. -/
structure Tallied (l : Learner (StateM W) Item S L α) (done : List (Task Item))
    (stats : LearningStats) : Prop where
  begun : ∀ e, .beginEpoch e ∈ done → e < stats.epochs
  epochs_le : ∀ n, (∀ t ∈ done, t.epoch < n) → stats.epochs ≤ n
  skipped_iff : ∀ v, v ∈ stats.skipped ↔ ∃ item, .visit item v ∈ done ∧ l.accepts item = false
  valid_accepted : ∀ v ∈ stats.hasValidParse, ∃ item, .visit item v ∈ done ∧ l.accepts item = true
  triggered_valid : ∀ v ∈ stats.triggeredUpdate, v ∈ stats.hasValidParse

section Course

variable [Zero α] [One α] [Add α] [Neg α] [Mul α] [Div α] [NatCast α] [LT α] [DecidableLT α] [LE α]
  [DecidableLE α] [BEq α] [OfScientific α] [ScoreRange α]
  {l : Learner (StateM W) Item S L α} {ts : List (Task Item)} {model : Model S α} {w : W}

/-- A mark comes from the visit of an item, along with the other marks of that visit. -/
theorem exists_visited_of_mark_mem {m : Mark} {v : Visit}
    (h : .mark m v ∈ (l.course ts model w).notes) :
    ∃ item, .visit item v ∈ ts ∧ ∃ model' w', m ∈ (l.visited item model' w').notes ∧
      ∀ m' ∈ (l.visited item model' w').notes, .mark m' v ∈ (l.course ts model w).notes := by
  obtain ⟨t, ht, model', w', hmem, hsubset⟩ := exists_outcome_of_mem_notes h
  obtain ⟨item, rfl, hm⟩ := mark_mem_notes_outcome.1 hmem
  exact ⟨item, ht, model', w', hm, fun m' hm' =>
    hsubset (mark_mem_notes_outcome.2 ⟨item, rfl, hm'⟩)⟩

/-- **A course that succeeds leaves the tally of its tasks.** -/
theorem tallied_course (hok : (l.course ts model w).result = .ok ()) :
    l.Tallied ts (LearningStats.enterAll {} (l.course ts model w).notes) := by
  constructor
  case begun =>
    intro e he
    obtain ⟨model', w', hsubset⟩ := exists_outcome_of_mem_tasks hok he
    exact LearningStats.epoch_lt_epochs_enterAll (hsubset List.mem_cons_self)
  case epochs_le =>
    refine fun n hn => LearningStats.epochs_enterAll_le_iff.2
      ⟨Nat.zero_le n, fun note hnote => ?_⟩
    obtain ⟨t, ht, model', w', hmem, -⟩ := exists_outcome_of_mem_notes hnote
    rw [epoch_of_mem_notes_outcome hmem]
    exact hn t ht
  case skipped_iff =>
    intro v
    refine (LearningStats.mem_marked_enterAll_empty (m := .skipped)).trans ⟨fun h => ?_, ?_⟩
    · obtain ⟨item, hitem, model', w', hm, -⟩ := exists_visited_of_mark_mem h
      refine ⟨item, hitem, ?_⟩
      rcases l.notes_visited item model' w' with ⟨hrejects, -⟩ | ⟨-, hnotes | hnotes | hnotes⟩
      · exact hrejects
      all_goals simp [hnotes] at hm
    · rintro ⟨item, hitem, hrejects⟩
      obtain ⟨model', w', hsubset⟩ := exists_outcome_of_mem_tasks hok hitem
      refine hsubset (mark_mem_notes_outcome.2 ⟨item, rfl, ?_⟩)
      rcases l.notes_visited item model' w' with ⟨-, hnotes⟩ | ⟨haccepts, -⟩
      · simp [hnotes]
      · rw [hrejects] at haccepts
        cases haccepts
  case valid_accepted =>
    intro v hv
    obtain ⟨item, hitem, model', w', hm, -⟩ :=
      exists_visited_of_mark_mem ((LearningStats.mem_marked_enterAll_empty (m := .validParse)).1 hv)
    refine ⟨item, hitem, ?_⟩
    rcases l.notes_visited item model' w' with ⟨-, hnotes⟩ | ⟨haccepts, -⟩
    · simp [hnotes] at hm
    · exact haccepts
  case triggered_valid =>
    intro v hv
    obtain ⟨item, hitem, model', w', hm, hmarks⟩ :=
      exists_visited_of_mark_mem ((LearningStats.mem_marked_enterAll_empty (m := .update)).1 hv)
    refine (LearningStats.mem_marked_enterAll_empty (m := .validParse)).2 (hmarks _ ?_)
    rcases l.notes_visited item model' w' with ⟨-, hnotes⟩ | ⟨-, hnotes | hnotes | hnotes⟩
    all_goals simp [hnotes] at hm ⊢

end Course

/-! ### A finished schedule -/

section Finished

variable {l : Learner (StateM W) Item S L α} {items : List Item} {stats : LearningStats}

theorem Tallied.epochs_eq (h : l.Tallied (l.tasks items) stats) :
    stats.epochs = l.params.epochs.toNat := by
  apply Nat.le_antisymm
  · refine h.epochs_le _ fun t ht => ?_
    have hepoch := (epoch_of_mem_schedule ht).2
    omega
  · cases hcount : l.params.epochs.toNat with
    | zero => exact Nat.zero_le _
    | succ count =>
      -- the last epoch has been started
      refine h.begun count (beginEpoch_mem_schedule_iff.2 ⟨Nat.zero_le _, ?_⟩)
      omega

theorem visit_mem_tasks_iff {item : Item} {v : Visit} :
    .visit item v ∈ l.tasks items ↔
      v.epoch < l.params.epochs.toNat ∧ items[v.item]? = some item := by
  rw [tasks, visit_mem_schedule_iff, Nat.zero_add]
  simp

theorem Tallied.skipped_iff_rejected (h : l.Tallied (l.tasks items) stats) (v : Visit) :
    v ∈ stats.skipped ↔ v.epoch < l.params.epochs.toNat ∧
      ∃ item, items[v.item]? = some item ∧ l.accepts item = false := by
  simp only [h.skipped_iff, visit_mem_tasks_iff, and_assoc, exists_and_left]

theorem Tallied.mem_range (h : l.Tallied (l.tasks items) stats) {v : Visit}
    (hv : v ∈ stats.hasValidParse ∨ v ∈ stats.triggeredUpdate ∨ v ∈ stats.skipped) :
    v.item < items.length ∧ v.epoch < l.params.epochs.toNat := by
  have hvisited : ∃ item, .visit item v ∈ l.tasks items := by
    rcases hv with hv | hv | hv
    · obtain ⟨item, hmem, -⟩ := h.valid_accepted v hv
      exact ⟨item, hmem⟩
    · obtain ⟨item, hmem, -⟩ := h.valid_accepted v (h.triggered_valid v hv)
      exact ⟨item, hmem⟩
    · obtain ⟨item, hmem, -⟩ := (h.skipped_iff v).1 hv
      exact ⟨item, hmem⟩
  obtain ⟨item, hmem⟩ := hvisited
  obtain ⟨hepoch, hitem⟩ := visit_mem_tasks_iff.1 hmem
  obtain ⟨hlt, -⟩ := List.getElem?_eq_some_iff.1 hitem
  exact ⟨hlt, hepoch⟩

theorem Tallied.valid_notMem_skipped (h : l.Tallied (l.tasks items) stats) {v : Visit}
    (hv : v ∈ stats.hasValidParse) : v ∉ stats.skipped := by
  intro hskipped
  obtain ⟨item, hmem, haccepts⟩ := h.valid_accepted v hv
  obtain ⟨item', hmem', hrejects⟩ := (h.skipped_iff v).1 hskipped
  have hitem := (visit_mem_tasks_iff.1 hmem).2
  rw [(visit_mem_tasks_iff.1 hmem').2, Option.some.injEq] at hitem
  rw [hitem, haccepts] at hrejects
  cases hrejects

/-- **The numbers of an epoch add up.** -/
theorem Tallied.epoch_le (h : l.Tallied (l.tasks items) stats) (epoch : Nat) :
    (stats.epoch epoch).triggeredUpdate ≤ (stats.epoch epoch).hasValidParse ∧
      (stats.epoch epoch).hasValidParse + (stats.epoch epoch).skipped ≤ items.length :=
  ⟨VisitSet.countIn_le_countIn h.triggered_valid,
    VisitSet.countIn_add_countIn_le (fun _ hv => h.valid_notMem_skipped hv)
      (fun _ hv => (h.mem_range (.inl hv)).1) fun _ hv => (h.mem_range (.inr (.inr hv))).1⟩

end Finished

/-! ### Training -/

section Training

variable [Zero α] [One α] [Add α] [Neg α] [Mul α] [Div α] [NatCast α] [LT α] [DecidableLT α] [LE α]
  [DecidableLE α] [BEq α] [OfScientific α] [ScoreRange α]

/-- **The statistics of a training are consistent.**  They count all epochs and name visits of the
data only; updates come from items with a valid parse, and the skipped visits are those of the items
that the filter rejects.  So the numbers of each epoch add up, and there is one recorded update for
each update that was applied.  If the lexicon generator leaves the weights alone, these updates are
what was added to the weights. -/
theorem train_stats_consistent (l : Learner (StateM W) Item S L α) (items : List Item)
    (model : Model S α) (w : W) {stats : LearningStats} {model' : Model S α} {w' : W}
    (h : (l.train items model).run w = ((.ok stats, model'), w')) :
    stats.epochs = l.params.epochs.toNat ∧
      (∀ v, v ∈ stats.hasValidParse ∨ v ∈ stats.triggeredUpdate ∨ v ∈ stats.skipped →
        v.item < items.length ∧ v.epoch < l.params.epochs.toNat) ∧
      (∀ v ∈ stats.triggeredUpdate, v ∈ stats.hasValidParse) ∧
      (∀ v ∈ stats.hasValidParse, v ∉ stats.skipped) ∧
      (∀ v, v ∈ stats.skipped ↔ v.epoch < l.params.epochs.toNat ∧
        ∃ item, items[v.item]? = some item ∧ l.accepts item = false) ∧
      (∀ epoch, (stats.epoch epoch).triggeredUpdate ≤ (stats.epoch epoch).hasValidParse ∧
        (stats.epoch epoch).hasValidParse + (stats.epoch epoch).skipped ≤ items.length) ∧
      stats.triggeredUpdate.visits.length =
        (l.ledger (l.tasks items) (⟨model, {}⟩, w)).length ∧
      (l.AdoptPreserves Model.theta → model'.theta = (l.ledger (l.tasks items)
        (⟨model, {}⟩, w)).foldl (fun theta a => theta.addTimes 1 a.update) model.theta) := by
  rw [train_eq_course] at h
  have hepochs : ∀ t ∈ l.tasks items, t.epoch < lastEpoch := fun _ => epoch_lt_of_mem_tasks
  have hrun := exec_performAll (l := l) hepochs model {} w
  rcases hcourse : l.course (l.tasks items) model w with ⟨e | u, model'', w'', notes⟩
  all_goals rw [hcourse] at h hrun
  · cases h
  cases h
  have hok : (l.course (l.tasks items) model w).result = .ok () := by rw [hcourse]
  have htally := tallied_course hok
  rw [hcourse] at htally
  refine ⟨htally.epochs_eq, fun v hv => htally.mem_range hv, htally.triggered_valid,
    fun v hv => htally.valid_notMem_skipped hv, htally.skipped_iff_rejected, htally.epoch_le,
    ?_, fun hadopt => (accounts_of_performAll hadopt hrun).theta_eq⟩
  have hnodup : ((l.ledger (l.tasks items) (⟨model, {}⟩, w)).map Applied.visit).Nodup :=
    (visits_ledger_sublist _ _).nodup (nodup_visits_schedule items 0 l.params.epochs.toNat)
  rw [VisitSet.length_eq_of_mem_iff hnodup, List.length_map]
  intro v
  rw [triggered_iff_of_performAll hrun]
  simp

end Training

/-- Does not even try the sample that its parser fails on. -/
def waryLearner : Learner (StateM Unit) Bool Bool Unit ℚ :=
  { brittleLearner ℚ with filter := some id }

theorem train_stats_consistent_wary :
    ∃ stats model', (waryLearner.train [true, false] {}).run () = ((.ok stats, model'), ()) ∧
      stats.triggeredUpdate.visits = [⟨0, 0⟩] ∧ stats.epochs = 1 ∧ ⟨1, 0⟩ ∈ stats.skipped ∧
      (stats.epoch 0).hasValidParse + (stats.epoch 0).skipped ≤ 2 ∧
      (waryLearner.ledger (waryLearner.tasks [true, false]) (⟨{}, {}⟩, ())).length = 1 := by
  have hupdates : ((waryLearner.train [true, false] {}).run ()).1.1.toOption.map
      (·.triggeredUpdate.visits) = some [⟨0, 0⟩] := by
    decide +kernel
  rcases hrun : (waryLearner.train [true, false] {}).run () with ⟨⟨e | stats, model'⟩, w⟩
  · rw [hrun] at hupdates
    cases hupdates
  · have hvisits : stats.triggeredUpdate.visits = [⟨0, 0⟩] := by
      rw [hrun] at hupdates
      exact Option.some.inj hupdates
    obtain ⟨hepochs, -, -, -, hskipped, hepoch, hlength, -⟩ :=
      train_stats_consistent waryLearner [true, false] {} () hrun
    have hrejected : ⟨1, 0⟩ ∈ stats.skipped := (hskipped _).2 ⟨by decide, false, rfl, rfl⟩
    exact ⟨stats, model', rfl, hvisits, hepochs, hrejected, (hepoch 0).2,
      by rw [← hlength, hvisits]; rfl⟩

end Learner

end LogicalForms
