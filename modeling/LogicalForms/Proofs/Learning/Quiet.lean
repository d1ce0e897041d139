import LogicalForms.Proofs.Learning.Epochs

/-!
# Quiet epochs

An epoch is quiet if it has no update.  Without a lexicon generator such an epoch leaves the model
as it is (`Learner.model_course_of_quiet`), and with a parser that answers alike in every world the
next epoch then takes the same course (`Learner.course_steady`).  So a quiet epoch is a fixed point
of training (`Learner.train_of_quiet_epoch`).
-/

namespace LogicalForms

variable {Item S L α W : Type}

theorem VisitSet.countIn_eq_zero_iff {s : VisitSet} {epoch : Nat} :
    s.countIn epoch = 0 ↔ ∀ v ∈ s, v.epoch ≠ epoch := by
  rw [countIn, List.countP_eq_zero]
  simp only [decide_eq_true_eq]
  rfl

namespace Learner

variable [Zero α] [One α] [Add α] [Neg α] [Mul α] [Div α] [NatCast α] [LT α] [DecidableLT α] [LE α]
  [DecidableLE α] [BEq α] [OfScientific α] [ScoreRange α]
  {l : Learner (StateM W) Item S L α} {items : List Item} {ts : List (Task Item)}
  {model : Model S α} {w : W}

/-! ### Without updates -/

theorem model_visited_of_quiet (hgenerator : l.generator = none) {item : Item}
    (hquiet : .update ∉ (l.visited item model w).notes) :
    (l.visited item model w).model = model := by
  have hadopt : l.AdoptPreserves id := by
    intro generator hset
    rw [hgenerator] at hset
    cases hset
  unfold visited at hquiet ⊢
  split_ifs at hquiet ⊢
  · rcases hout : exec (l.outputs item) (⟨model, {}⟩, w) with ⟨e | ⟨real, good⟩, p, w'⟩
    all_goals have hmodel : p.model = model :=
      (Prod.mk.inj ((consults_outputs.preserves hadopt).of_exec hout)).1
    · exact hmodel
    · simp only [hout] at hquiet ⊢
      rcases hproposed : proposedUpdate l.params (l.isValid item) real good p.model with
        e | _ | update
      · exact hmodel
      · exact hmodel
      · simp [hproposed] at hquiet
  · rfl

/-- **A course without updates leaves the model alone.** -/
theorem model_course_of_quiet (hgenerator : l.generator = none)
    (hquiet : ∀ v, .mark .update v ∉ (l.course ts model w).notes) :
    (l.course ts model w).model = model := by
  induction ts generalizing w with
  | nil => rfl
  | cons t ts ih =>
    have ht : (l.outcome t model w).model = model := by
      cases t with
      | beginEpoch epoch => rfl
      | visit item v =>
        refine model_visited_of_quiet hgenerator fun hupdate => hquiet v ?_
        exact notes_outcome_subset_notes_course ts (mark_mem_notes_outcome.2 ⟨item, rfl, hupdate⟩)
    rcases hresult : (l.outcome t model w).result with e | u
    · rw [course_cons_of_error hresult, ht]
    · rw [notes_course_cons_of_ok hresult, ht] at hquiet
      rw [course, Outcome.andThen_of_ok hresult, ht]
      exact ih fun v hv => hquiet v (List.mem_append_right _ hv)

/-! ### In another world -/

theorem visited_steady {item : Item} (hsteady : Steady (l.outputs item)) (model : Model S α)
    (w w' : W) : ∃ w'', l.visited item model w' = { l.visited item model w with world := w'' } := by
  unfold visited
  split_ifs
  · obtain ⟨hr, hp⟩ := hsteady ⟨model, {}⟩ w w'
    rcases hw : exec (l.outputs item) (⟨model, {}⟩, w) with ⟨r, p, w₁⟩
    rcases hw' : exec (l.outputs item) (⟨model, {}⟩, w') with ⟨r', p', w₁'⟩
    rw [hw, hw'] at hr hp
    obtain rfl : r = r' := hr
    obtain rfl : p = p' := hp
    refine ⟨w₁', ?_⟩
    rcases r with e | ⟨real, good⟩
    · rfl
    · simp only
      rcases proposedUpdate l.params (l.isValid item) real good p.model with e | _ | update
      · rfl
      · rfl
      · rfl
  · exact ⟨w', rfl⟩

theorem outcome_steady (hsteady : ∀ item, Steady (l.outputs item)) (t : Task Item)
    (model : Model S α) (w w' : W) :
    ∃ w'', l.outcome t model w' = { l.outcome t model w with world := w'' } := by
  cases t with
  | beginEpoch epoch => exact ⟨w', rfl⟩
  | visit item v =>
    obtain ⟨w'', hvisited⟩ := visited_steady (hsteady item) model w w'
    exact ⟨w'', by rw [outcome, hvisited]; rfl⟩

/-- **If the parses of a visit are the same in every world, then the course is the same**, but for
the world that it leaves behind. -/
theorem course_steady (hsteady : ∀ item, Steady (l.outputs item)) (ts : List (Task Item))
    (model : Model S α) (w w' : W) :
    ∃ w'', l.course ts model w' = { l.course ts model w with world := w'' } := by
  induction ts generalizing model w w' with
  | nil => exact ⟨w', rfl⟩
  | cons t ts ih =>
    obtain ⟨w₁, ht⟩ := outcome_steady hsteady t model w w'
    rw [course, course, ht]
    rcases l.outcome t model w with ⟨e | u, model', w₁', notes⟩
    · exact ⟨w₁, rfl⟩
    · obtain ⟨w₂, hts⟩ := ih model' w₁' w₁
      exact ⟨w₂, by simp only [Outcome.andThen, hts]⟩

/-! ### The same epoch again -/

/-- The notes of an epoch, made in `count` epochs. -/
def repeated (notes : List Note) (count : Nat) : List Note :=
  (List.range count).flatMap fun n => notes.map (Renumbering.later n).note

theorem repeated_succ (notes : List Note) (count : Nat) :
    repeated notes (count + 1) =
      repeated notes count ++ notes.map (Renumbering.later count).note := by
  rw [repeated, repeated, List.range_succ, List.flatMap_append, List.flatMap_singleton]

theorem mark_mem_repeated_iff {first count n : Nat} {notes : List Note}
    (hnotes : ∀ note ∈ notes, note.epoch = first) {m : Mark} {i : Nat} (hn : n < count) :
    .mark m ⟨i, first + n⟩ ∈ repeated notes count ↔ .mark m ⟨i, first⟩ ∈ notes := by
  simp only [repeated, List.mem_flatMap, List.mem_range, Renumbering.mark_mem_map_note]
  constructor
  · rintro ⟨k, -, ⟨j, epoch⟩, hmem, hvisit⟩
    obtain rfl : epoch = first := hnotes _ hmem
    obtain ⟨rfl, -⟩ : j = i ∧ epoch + k = epoch + n := Visit.mk.inj hvisit
    exact hmem
  · exact fun hmem => ⟨n, hn, _, hmem, rfl⟩

/-- What is marked in one of the repetitions is marked in the first epoch. -/
theorem mem_marked_repeated_iff {before notes : List Note} {first count n : Nat}
    (hbefore : ∀ note ∈ before, note.epoch < first) (hnotes : ∀ note ∈ notes, note.epoch = first)
    {m : Mark} {i : Nat} (hn : n < count) :
    ⟨i, first + n⟩ ∈ (LearningStats.enterAll {} (before ++ repeated notes count)).marked m ↔
      ⟨i, first⟩ ∈ (LearningStats.enterAll {} (before ++ notes)).marked m := by
  have hnone : ∀ epoch, first ≤ epoch → .mark m ⟨i, epoch⟩ ∉ before := by
    intro epoch hle hmem
    have hlt : epoch < first := hbefore _ hmem
    omega
  rw [LearningStats.mem_marked_enterAll_empty, LearningStats.mem_marked_enterAll_empty,
    List.mem_append, List.mem_append, or_iff_right (hnone _ (Nat.le_add_right first n)),
    or_iff_right (hnone _ (Nat.le_refl first))]
  exact mark_mem_repeated_iff hnotes hn

/-- **An epoch that leaves the model alone is repeated.** -/
theorem course_schedule_of_fixed {first : Nat} {notes : List Note}
    (hfixed : ∀ w, ∃ w', l.course (schedule items first 1) model w = ⟨.ok (), model, w', notes⟩)
    (count : Nat) (w : W) :
    ∃ w', l.course (schedule items first count) model w =
      ⟨.ok (), model, w', repeated notes count⟩ := by
  induction count with
  | zero => exact ⟨w, rfl⟩
  | succ count ih =>
    obtain ⟨w₁, hcourse⟩ := ih
    obtain ⟨w₂, hlast⟩ := hfixed w₁
    refine ⟨w₂, ?_⟩
    rw [course_schedule_add, hcourse, Outcome.andThen_of_ok rfl, hlast, repeated_succ]
    rfl

theorem course_schedule_of_quiet (hgenerator : l.generator = none)
    (hsteady : ∀ item, Steady (l.outputs item)) {first : Nat} {model' : Model S α} {w' : W}
    {notes : List Note}
    (hepoch : l.course (schedule items first 1) model w = ⟨.ok (), model', w', notes⟩)
    (hquiet : ∀ v, .mark .update v ∉ notes) (count : Nat) :
    ∃ w', l.course (schedule items first count) model w =
      ⟨.ok (), model, w', repeated notes count⟩ := by
  have hmodel : model' = model := by
    have hkept : (∀ v, .mark .update v ∉ (l.course (schedule items first 1) model w).notes) →
        (l.course (schedule items first 1) model w).model = model :=
      model_course_of_quiet hgenerator
    rw [hepoch] at hkept
    exact hkept hquiet
  refine course_schedule_of_fixed (fun w₁ => ?_) count w
  obtain ⟨w₂, halike⟩ := course_steady hsteady (schedule items first 1) model w w₁
  exact ⟨w₂, by rw [halike, hepoch, hmodel]⟩

/-! ### Training -/

theorem epoch_of_mem_notes_schedule {first count : Nat} {o : Outcome S α W Note} {note : Note}
    (h : l.course (schedule items first count) model w = o) (hnote : note ∈ o.notes) :
    first ≤ note.epoch ∧ note.epoch < first + count := by
  subst h
  obtain ⟨t, ht, model', w', hmem, -⟩ := exists_outcome_of_mem_notes hnote
  rw [epoch_of_mem_notes_outcome hmem]
  exact epoch_of_mem_schedule ht

theorem course_of_runEpochs_ok {first count : Nat} (hword : first + count < UInt64.size)
    {stats : LearningStats} {s : Situation S α W}
    (h : exec (l.runEpochs items first count) (⟨model, stats⟩, w) = (.ok (), s)) :
    ∃ notes, l.course (schedule items first count) model w = ⟨.ok (), s.1.model, s.2, notes⟩ ∧
      s.1.stats = stats.enterAll notes := by
  have hepochs : ∀ t ∈ schedule items first count, t.epoch < lastEpoch := by
    intro t ht
    have hrange := (epoch_of_mem_schedule ht).2
    rw [lt_lastEpoch_iff]
    omega
  rw [← performAll_schedule, exec_performAll hepochs] at h
  obtain ⟨hresult, rfl⟩ := Prod.mk.inj h
  exact ⟨_, by rw [← hresult], rfl⟩

theorem runEpochs_one (items : List Item) (epoch : Nat) :
    l.runEpochs items epoch 1 = l.runEpoch items epoch := by
  rw [runEpochs, runEpochs]
  exact bind_pure _

/-- **A quiet epoch is a fixed point.**  Without a lexicon generator, and with a parser that answers
alike in every world, let epoch `e` be completed without an update.  Then training succeeds with
the model that this epoch began with, and all later epochs are like it: they have no updates, and
the same items have a valid parse or are skipped. -/
theorem train_of_quiet_epoch (l : Learner (StateM W) Item S L α) (hgenerator : l.generator = none)
    (hparse : ∀ sample model request, AnswersAlike (l.parser.parse sample model request))
    (items : List Item) (model : Model S α) (w : W) {e : Nat} (he : e < l.params.epochs.toNat)
    {s s' : Situation S α W} (hbefore : exec (l.runEpochs items 0 e) (⟨model, {}⟩, w) = (.ok (), s))
    (hepoch : exec (l.runEpoch items e) s = (.ok (), s'))
    (hquiet : (s'.1.stats.epoch e).triggeredUpdate = 0) :
    ∃ stats w', (l.train items model).run w = ((.ok stats, s.1.model), w') ∧
      ∀ e', e ≤ e' → e' < l.params.epochs.toNat →
        (stats.epoch e').triggeredUpdate = 0 ∧
        (∀ i, ⟨i, e'⟩ ∈ stats.hasValidParse ↔ ⟨i, e⟩ ∈ s'.1.stats.hasValidParse) ∧
        ∀ i, ⟨i, e'⟩ ∈ stats.skipped ↔ ⟨i, e⟩ ∈ s'.1.stats.skipped := by
  have hsteady : ∀ item, Steady (l.outputs item) := by
    refine fun item => consults_outputs.steady hparse ?_ ?_
    all_goals
      intro generator hset
      rw [hgenerator] at hset
      cases hset
  rw [← runEpochs_one] at hepoch
  have hword : l.params.epochs.toNat < UInt64.size := l.params.epochs.toNat_lt_size
  obtain ⟨notes₀, hcourse₀, hstats₀⟩ := course_of_runEpochs_ok (by omega) hbefore
  obtain ⟨notes₁, hcourse₁, hstats₁⟩ := course_of_runEpochs_ok (by omega) hepoch
  have hstats : s'.1.stats = LearningStats.enterAll {} (notes₀ ++ notes₁) := by
    rw [hstats₁, hstats₀, LearningStats.enterAll_append]
  have hnotes₀ : ∀ note ∈ notes₀, note.epoch < e := by
    intro note hnote
    have hrange := epoch_of_mem_notes_schedule hcourse₀ hnote
    omega
  have hnotes₁ : ∀ note ∈ notes₁, note.epoch = e := by
    intro note hnote
    have hrange := epoch_of_mem_notes_schedule hcourse₁ hnote
    omega
  have hnone : ∀ v ∈ s'.1.stats.triggeredUpdate, v.epoch ≠ e :=
    VisitSet.countIn_eq_zero_iff.1 hquiet
  have hupdate : ∀ v, .mark .update v ∉ notes₁ := by
    intro v hmem
    refine hnone v ?_ (hnotes₁ _ hmem)
    rw [hstats]
    exact LearningStats.mem_marked_enterAll_empty.2 (List.mem_append_right _ hmem)
  -- the epochs from `e` on
  obtain ⟨count, hcount⟩ := Nat.exists_eq_add_of_le (Nat.le_of_lt he)
  obtain ⟨w', hrest⟩ := course_schedule_of_quiet hgenerator hsteady hcourse₁ hupdate count
  have hmarked : ∀ m i n, n < count →
      (⟨i, e + n⟩ ∈ (LearningStats.enterAll {} (notes₀ ++ repeated notes₁ count)).marked m ↔
        ⟨i, e⟩ ∈ s'.1.stats.marked m) := by
    intro m i n hn
    rw [hstats]
    exact mem_marked_repeated_iff hnotes₀ hnotes₁ hn
  refine ⟨LearningStats.enterAll {} (notes₀ ++ repeated notes₁ count), w', ?_, fun e' hle hlt => ?_⟩
  · rw [train_eq_course, tasks, hcount, schedule_add, Nat.zero_add, course_append, hcourse₀,
      Outcome.andThen_of_ok rfl, hrest]
    rfl
  · obtain ⟨n, rfl⟩ := Nat.exists_eq_add_of_le hle
    have hn : n < count := by omega
    refine ⟨VisitSet.countIn_eq_zero_iff.2 ?_, fun i => hmarked .validParse i n hn,
      fun i => hmarked .skipped i n hn⟩
    rintro ⟨i, epoch⟩ hv rfl
    exact hnone _ ((hmarked .update i n hn).1 hv) rfl

/-- After the update in the first epoch the margin is reached. -/
theorem train_of_quiet_epoch_brittle :
    let l := (brittleLearner ℚ).withEpochs 3
    ∃ s, exec (l.runEpochs [true] 0 1) (⟨{}, {}⟩, ()) = (.ok (), s) ∧
      s.1.model.theta.weight ⟨"right"⟩ = 1 ∧
      ∃ stats, (l.train [true] {}).run () = ((.ok stats, s.1.model), ()) ∧
        (stats.epoch 2).triggeredUpdate = 0 ∧ ⟨0, 2⟩ ∈ stats.hasValidParse := by
  intro l
  have hbefore : (exec (l.runEpochs [true] 0 1) (⟨{}, {}⟩, ())).1.toBool = true := by
    decide +kernel
  have hweight : (exec (l.runEpochs [true] 0 1) (⟨{}, {}⟩, ())).2.1.model.theta.weight ⟨"right"⟩ =
      1 := by
    decide +kernel
  have hepoch : (exec (l.runEpoch [true] 1)
      (exec (l.runEpochs [true] 0 1) (⟨{}, {}⟩, ())).2).1.toBool = true := by
    decide +kernel
  have hstats : (exec (l.runEpoch [true] 1)
      (exec (l.runEpochs [true] 0 1) (⟨{}, {}⟩, ())).2).2.1.stats =
      .enterAll {} [.mark .validParse ⟨0, 0⟩, .mark .update ⟨0, 0⟩, .mark .validParse ⟨0, 1⟩] := by
    decide +kernel
  rcases hrun : exec (l.runEpochs [true] 0 1) (⟨{}, {}⟩, ()) with ⟨e | u, s⟩
  · rw [hrun] at hbefore
    cases hbefore
  rw [hrun] at hweight hepoch hstats
  rcases hrun' : exec (l.runEpoch [true] 1) s with ⟨e | u', s'⟩
  · rw [hrun'] at hepoch
    cases hepoch
  rw [hrun'] at hstats
  obtain ⟨stats, w', htrain, hlater⟩ := train_of_quiet_epoch l rfl (fun _ _ _ _ _ => rfl) [true]
    {} () (by decide) hrun hrun' (by rw [hstats]; decide)
  obtain ⟨hquiet, hvalid, -⟩ := hlater 2 (by decide) (by decide)
  exact ⟨s, rfl, hweight, stats, htrain, hquiet, (hvalid 0).2 (by rw [hstats]; decide)⟩

end Learner

end LogicalForms
