import LogicalForms.Proofs.Learning.Course
import LogicalForms.Proofs.Learning.Statistics

/-!
# Training epoch by epoch

Training for some epochs and then for some more is training for all of them
(`Learner.train_add_epochs`): the second training goes on with the model that the first one leaves
behind, and its statistics count from the epoch where the first one stopped.
-/

namespace LogicalForms

variable {Item S L α W : Type}

/-! ### Sets of visits -/

namespace VisitSet

variable {s t : VisitSet} {v : Visit}

theorem ext_mem (h : ∀ v, v ∈ s ↔ v ∈ t) : s = t := by
  obtain ⟨vs, hvs⟩ := s
  obtain ⟨ws, hws⟩ := t
  have hperm : vs.Perm ws := (List.perm_ext_iff_of_nodup (nodup ⟨vs, hvs⟩) (nodup ⟨ws, hws⟩)).2 h
  have heq : vs = ws := hperm.eq_of_pairwise
    (fun v w _ _ hvw hwv => absurd (Visit.lt_trans hvw hwv) (Visit.lt_irrefl v)) hvs hws
  subst heq
  rfl

/-- The visits of both sets. -/
instance : Union VisitSet := ⟨fun s t => t.visits.foldl insert s⟩

@[simp] theorem mem_union : v ∈ s ∪ t ↔ v ∈ s ∨ v ∈ t := by
  have hfold : ∀ (vs : List Visit) (s : VisitSet), v ∈ vs.foldl insert s ↔ v ∈ s ∨ v ∈ vs := by
    intro vs
    induction vs with
    | nil => simp
    | cons w ws ih =>
      intro s
      rw [List.foldl_cons, ih, mem_insert, List.mem_cons, or_comm (a := v = w), or_assoc]
  exact hfold t.visits s

/-- The visits of the same items `n` epochs later. -/
def postpone (n : Nat) (s : VisitSet) : VisitSet where
  visits := s.visits.map fun v => ⟨v.item, v.epoch + n⟩
  ascending := by
    refine List.pairwise_map.2 (s.ascending.imp fun {v w} h => ?_)
    rw [Visit.lt_def] at *
    simp only
    omega

@[simp] theorem mem_postpone {n : Nat} :
    v ∈ s.postpone n ↔ ∃ u ∈ s, (⟨u.item, u.epoch + n⟩ : Visit) = v := List.mem_map

end VisitSet

/-! ### Schedules -/

/-- The same items, `n` epochs later. -/
def Renumbering.later (n : Nat) : Renumbering := { epoch := (· + n) }

theorem visitsFrom_later (epoch n position : Nat) (items : List Item) :
    visitsFrom (epoch + n) position items =
      (visitsFrom epoch position items).map (Renumbering.later n).task := by
  induction items generalizing position with
  | nil => rfl
  | cons item items ih =>
    rw [visitsFrom, visitsFrom, List.map_cons, ih]
    rfl

theorem schedule_later (items : List Item) (first n count : Nat) :
    schedule items (first + n) count =
      (schedule items first count).map (Renumbering.later n).task := by
  induction count generalizing first with
  | zero => rfl
  | succ count ih =>
    rw [schedule, schedule, List.map_append, List.map_cons, visitsFrom_later, ← ih,
      Nat.add_right_comm]
    rfl

theorem schedule_add (items : List Item) (first n m : Nat) :
    schedule items first (n + m) = schedule items first n ++ schedule items (first + n) m := by
  induction n generalizing first with
  | zero => simp [schedule]
  | succ n ih =>
    rw [Nat.succ_add, schedule, schedule, ih, List.append_assoc, Nat.add_right_comm, Nat.add_assoc]

/-! ### Epochs compose -/

namespace LearningStats

theorem eq_of_marked {stats stats' : LearningStats} (hepochs : stats.epochs = stats'.epochs)
    (hmarked : ∀ m, stats.marked m = stats'.marked m) : stats = stats' := by
  obtain ⟨epochs, validParse, triggered, skipped⟩ := stats
  obtain ⟨epochs', validParse', triggered', skipped'⟩ := stats'
  obtain rfl : epochs = epochs' := hepochs
  obtain rfl : validParse = validParse' := hmarked .validParse
  obtain rfl : triggered = triggered' := hmarked .update
  obtain rfl : skipped = skipped' := hmarked .skipped
  rfl

theorem marked_enterAll_append_later (notes notes' : List Note) (n : Nat) (m : Mark) :
    (enterAll {} (notes ++ notes'.map (Renumbering.later n).note)).marked m =
      (enterAll {} notes).marked m ∪ ((enterAll {} notes').marked m).postpone n := by
  refine VisitSet.ext_mem fun v => ?_
  simp only [VisitSet.mem_union, VisitSet.mem_postpone, mem_marked_enterAll_empty,
    List.mem_append, Renumbering.mark_mem_map_note]
  rfl

theorem enterAll_append_later {notes notes' : List Note} {n epochs : Nat}
    (hepochs : (enterAll {} (notes ++ notes'.map (Renumbering.later n).note)).epochs = epochs) :
    enterAll {} (notes ++ notes'.map (Renumbering.later n).note) =
      let stats := enterAll {} notes
      let stats' := enterAll {} notes'
      { epochs
        hasValidParse := stats.hasValidParse ∪ stats'.hasValidParse.postpone n
        triggeredUpdate := stats.triggeredUpdate ∪ stats'.triggeredUpdate.postpone n
        skipped := stats.skipped ∪ stats'.skipped.postpone n } := by
  refine eq_of_marked hepochs fun m => (marked_enterAll_append_later notes notes' n m).trans ?_
  cases m <;> rfl

end LearningStats

namespace Learner

/-- The learner with another number of epochs. -/
def withEpochs {m : Type → Type} (l : Learner m Item S L α) (n : UInt64) : Learner m Item S L α :=
  { l with params := { l.params with epochs := n } }

variable [Zero α] [One α] [Add α] [Neg α] [Mul α] [Div α] [NatCast α] [LT α] [DecidableLT α] [LE α]
  [DecidableLE α] [BEq α] [OfScientific α] [ScoreRange α]

theorem course_withEpochs (l : Learner (StateM W) Item S L α) (n : UInt64) :
    (l.withEpochs n).course = l.course := by
  funext ts
  induction ts with
  | nil => rfl
  | cons t ts ih =>
    funext model w
    rw [course, course, ih]
    rfl

theorem train_withEpochs (l : Learner (StateM W) Item S L α) (n : UInt64) (items : List Item)
    (model : Model S α) (w : W) :
    ((l.withEpochs n).train items model).run w =
      let o := l.course (schedule items 0 n.toNat) model w
      ((o.result.map fun _ => LearningStats.enterAll {} o.notes, o.model), o.world) := by
  rw [train_eq_course, course_withEpochs]
  rfl

/-- **The course of more epochs** is that of the first ones and, unless it fails, the course of the
others, as if they were the first, with the numbers of the epochs moved up. -/
theorem course_schedule_add (l : Learner (StateM W) Item S L α) (items : List Item)
    (first n m : Nat) (model : Model S α) (w : W) :
    l.course (schedule items first (n + m)) model w =
      (l.course (schedule items first n) model w).andThen fun model w =>
        (l.course (schedule items first m) model w).mapNotes
          (List.map (Renumbering.later n).note) := by
  rw [schedule_add, schedule_later, course_append]
  congr 1
  funext model w
  exact course_renumber (Renumbering.later n) _ model w

theorem epochs_course_schedule (l : Learner (StateM W) Item S L α) (items : List Item) (n : UInt64)
    (model : Model S α) (w : W)
    (hok : (l.course (schedule items 0 n.toNat) model w).result = .ok ()) :
    (LearningStats.enterAll {} (l.course (schedule items 0 n.toNat) model w).notes).epochs =
      n.toNat := by
  rw [← course_withEpochs l n] at hok ⊢
  exact Tallied.epochs_eq (tallied_course hok)

/-- **Epochs compose.**  Training for `n + m` epochs ends like training for `n` epochs, if that
fails, and else like training for `m` epochs from the model and the world that the `n` epochs leave
behind.  If both succeed, then the statistics are those of both trainings, those of the second one
being `n` epochs later. -/
theorem train_add_epochs (l : Learner (StateM W) Item S L α) (items : List Item)
    (model : Model S α) (w : W) {n m : UInt64} (hword : n.toNat + m.toNat < 2 ^ 64) :
    ((l.withEpochs (n + m)).train items model).run w =
      match ((l.withEpochs n).train items model).run w with
      | ((.error e, model₁), w₁) => ((.error e, model₁), w₁)
      | ((.ok stats₁, model₁), w₁) =>
        match ((l.withEpochs m).train items model₁).run w₁ with
        | ((.error e, model₂), w₂) => ((.error e, model₂), w₂)
        | ((.ok stats₂, model₂), w₂) =>
          ((.ok {
              epochs := n.toNat + m.toNat
              hasValidParse := stats₁.hasValidParse ∪ stats₂.hasValidParse.postpone n.toNat
              triggeredUpdate := stats₁.triggeredUpdate ∪ stats₂.triggeredUpdate.postpone n.toNat
              skipped := stats₁.skipped ∪ stats₂.skipped.postpone n.toNat }, model₂), w₂) := by
  have hsum : (n + m).toNat = n.toNat + m.toNat := by
    rw [UInt64.toNat_add]
    exact Nat.mod_eq_of_lt hword
  have hlong := l.course_schedule_add items 0 n.toNat m.toNat model w
  have hepochs := l.epochs_course_schedule items (n + m) model w
  rw [hsum] at hepochs
  simp only [train_withEpochs, hsum]
  rcases hshort₁ : l.course (schedule items 0 n.toNat) model w with ⟨e | u, model₁, w₁, notes₁⟩
  · rw [hlong, hshort₁]
    rfl
  · rcases hshort₂ : l.course (schedule items 0 m.toNat) model₁ w₁ with
      ⟨e | u, model₂, w₂, notes₂⟩
    · simp only [hlong, hshort₁, hshort₂, Outcome.andThen, Outcome.mapNotes, Except.map]
    · rw [hshort₁] at hlong
      simp only [Outcome.andThen, hshort₂, Outcome.mapNotes] at hlong
      rw [hlong] at hepochs ⊢
      simp only [hshort₂, Except.map]
      rw [LearningStats.enterAll_append_later (hepochs rfl)]

/-- There is an update in the first of two epochs only. -/
theorem train_add_epochs_brittle :
    ∃ model', (((brittleLearner ℚ).withEpochs (1 + 1)).train [true] {}).run () =
      ((.ok (.enterAll {} [.mark .validParse ⟨0, 0⟩, .mark .update ⟨0, 0⟩,
        .mark .validParse ⟨0, 1⟩]), model'), ()) := by
  have hfirst : ((((brittleLearner ℚ).withEpochs 1).train [true] {}).run ()).1.1.toOption =
      some (.enterAll {} [.mark .validParse ⟨0, 0⟩, .mark .update ⟨0, 0⟩]) := by
    decide +kernel
  have hsecond : ((((brittleLearner ℚ).withEpochs 1).train [true]
      ((((brittleLearner ℚ).withEpochs 1).train [true] {}).run ()).1.2).run ()).1.1.toOption =
      some (.enterAll {} [.mark .validParse ⟨0, 0⟩]) := by
    decide +kernel
  rw [train_add_epochs _ _ _ _ (by decide)]
  rcases hrun : (((brittleLearner ℚ).withEpochs 1).train [true] {}).run () with
    ⟨⟨e | stats, model⟩, ⟨⟩⟩
  · rw [hrun] at hfirst
    cases hfirst
  · rw [hrun] at hfirst hsecond
    cases hfirst
    rcases hrun' : (((brittleLearner ℚ).withEpochs 1).train [true] model).run () with
      ⟨⟨e | stats', model'⟩, ⟨⟩⟩
    · rw [hrun'] at hsecond
      cases hsecond
    · rw [hrun'] at hsecond
      cases hsecond
      refine ⟨model', ?_⟩
      simp only [hrun']
      rfl

end Learner

end LogicalForms
