import LogicalForms.Proofs.Learning.Schedule

/-!
# The course of training

Training writes statistics and never reads them.  So the course that it takes from a model and a
world — how it ends, which model and world it leaves behind, and what it notes down on the way — is
the same for all statistics (`Learner.course`).

* `Learner.exec_performAll` — performing tasks means to take this course and to enter its notes, as
  long as the number of epochs does not overflow.
* `Learner.course_append` — the course of two lists of tasks is that of the first and, unless it
  fails, that of the second.
* `Learner.course_renumber` — the numbers of items and epochs reach nothing but the notes.
-/

namespace LogicalForms

variable {Item S L α W κ ι : Type}

/-! ### Outcomes -/

/-- How a part of training goes. -/
structure Outcome (S α W κ : Type) where
  /-- How it ends. -/
  result : Except (LearningError α) Unit
  /-- The model that it leaves behind. -/
  model : Model S α
  /-- The world that it leaves behind. -/
  world : W
  /-- What it notes down. -/
  notes : List κ

namespace Outcome

/-- Goes on after an outcome, unless it is a failure. -/
def andThen (o : Outcome S α W κ) (next : Model S α → W → Outcome S α W κ) : Outcome S α W κ :=
  match o.result with
  | .error _ => o
  | .ok _ => { next o.model o.world with notes := o.notes ++ (next o.model o.world).notes }

/-- Changes the notes. -/
def mapNotes (f : List κ → List ι) (o : Outcome S α W κ) : Outcome S α W ι :=
  { o with notes := f o.notes }

/-- Enters the notes. -/
def entered (o : Outcome S α W Note) (stats : LearningStats) :
    Except (LearningError α) Unit × Situation S α W :=
  (o.result, ⟨o.model, stats.enterAll o.notes⟩, o.world)

theorem andThen_of_error {o : Outcome S α W κ} {e : LearningError α} (h : o.result = .error e)
    (next : Model S α → W → Outcome S α W κ) : o.andThen next = o := by
  rw [andThen, h]

theorem andThen_of_ok {o : Outcome S α W κ} (h : o.result = .ok ())
    (next : Model S α → W → Outcome S α W κ) :
    o.andThen next =
      { next o.model o.world with notes := o.notes ++ (next o.model o.world).notes } := by
  rw [andThen, h]

theorem andThen_assoc (o : Outcome S α W κ) (next next' : Model S α → W → Outcome S α W κ) :
    (o.andThen next).andThen next' = o.andThen fun model w => (next model w).andThen next' := by
  rcases o with ⟨e | u, model, w, notes⟩
  · rfl
  · simp only [andThen]
    rcases next model w with ⟨e | u, model', w', notes'⟩
    · rfl
    · simp only [List.append_assoc]

theorem mapNotes_andThen {f : List κ → List ι} (hf : ∀ ns ns', f (ns ++ ns') = f ns ++ f ns')
    (o : Outcome S α W κ) (next : Model S α → W → Outcome S α W κ) :
    (o.andThen next).mapNotes f =
      (o.mapNotes f).andThen fun model w => (next model w).mapNotes f := by
  rcases o with ⟨e | u, model, w, notes⟩
  · rfl
  · simp only [andThen, mapNotes, hf]

end Outcome

/-! ### The course of tasks -/

namespace Learner

variable [Zero α] [One α] [Add α] [Neg α] [Mul α] [Div α] [NatCast α] [LT α] [DecidableLT α] [LE α]
  [DecidableLE α] [BEq α] [OfScientific α] [ScoreRange α]

/-- The marks that two outputs give a visit before there is an update. -/
def parseMarks (l : Learner (StateM W) Item S L α) (item : Item) (real good : ParserOutput α) :
    List Mark :=
  if (Partition.ofOutputs id (l.isValid item) l.params.hardUpdates real.derivations
    good.derivations).valid.isEmpty then [] else [.validParse]

/-- What a visit of the item comes to. -/
def visited (l : Learner (StateM W) Item S L α) (item : Item) (model : Model S α) (w : W) :
    Outcome S α W Mark :=
  if l.accepts item then
    match exec (l.outputs item) (⟨model, {}⟩, w) with
    | (.error e, p, w') => ⟨.error e, p.model, w', []⟩
    | (.ok (real, good), p, w') =>
      match proposedUpdate l.params (l.isValid item) real good p.model with
      | .error e => ⟨.error e, p.model, w', l.parseMarks item real good⟩
      | .ok none => ⟨.ok (), p.model, w', l.parseMarks item real good⟩
      | .ok (some update) =>
        ⟨.ok (), (p.addUpdate update).model, w', l.parseMarks item real good ++ [.update]⟩
  else ⟨.ok (), model, w, [.skipped]⟩

/-- What a task comes to. -/
def outcome (l : Learner (StateM W) Item S L α) :
    Task Item → Model S α → W → Outcome S α W Note
  | .beginEpoch epoch, model, w => ⟨.ok (), model, w, [.beginEpoch epoch]⟩
  | .visit item v, model, w => (l.visited item model w).mapNotes (List.map (.mark · v))

/-- What tasks come to.  The first failure is the end. -/
def course (l : Learner (StateM W) Item S L α) :
    List (Task Item) → Model S α → W → Outcome S α W Note
  | [], model, w => ⟨.ok (), model, w, []⟩
  | t :: ts, model, w => (l.outcome t model w).andThen (l.course ts)

variable {l : Learner (StateM W) Item S L α} {items : List Item}

omit [Zero α] [One α] [Add α] [Neg α] [Mul α] [Div α] [NatCast α] [LE α] [DecidableLE α]
  [OfScientific α] in
theorem recordParse_of_lt (l : Learner (StateM W) Item S L α) (item : Item) {v : Visit}
    (hepoch : v.epoch < lastEpoch) (real good : ParserOutput α) (p : Progress S α) :
    recordParse l.params (l.isValid item) v real good p =
      (.ok (), ⟨p.model, p.stats.enterAll ((l.parseMarks item real good).map (.mark · v))⟩) := by
  rw [recordParse_eq, if_pos hepoch]
  unfold parseMarks noneValid
  split_ifs <;> rfl

theorem exec_visit (item : Item) {v : Visit} (hepoch : v.epoch < lastEpoch) (model : Model S α)
    (stats : LearningStats) (w : W) :
    exec (l.visit item v) (⟨model, stats⟩, w) =
      (l.outcome (.visit item v) model w).entered stats := by
  rw [outcome, visited]
  by_cases haccepts : l.accepts item = true
  · have hconsults : l.Consults (l.outputs item) := consults_outputs
    obtain ⟨r, model', w', hout⟩ := hconsults.oblivious model w
    rw [visit, if_pos haccepts, if_pos haccepts, exec_learnFrom, hout stats, hout {}]
    rcases r with e | ⟨real, good⟩
    · rfl
    · simp only [l.recordParse_of_lt item hepoch]
      rcases proposedUpdate l.params (l.isValid item) real good model' with e | _ | update
      · rfl
      · rfl
      · simp only [Outcome.entered, Outcome.mapNotes, List.map_append,
          LearningStats.enterAll_append]
        rfl
  · rw [exec_visit_of_rejects haccepts, if_pos hepoch, if_neg haccepts]
    rfl

theorem exec_perform {t : Task Item} (hepoch : t.epoch < lastEpoch) (model : Model S α)
    (stats : LearningStats) (w : W) :
    exec (l.perform t) (⟨model, stats⟩, w) = (l.outcome t model w).entered stats := by
  cases t with
  | beginEpoch epoch => exact (exec_beginEpoch epoch _).trans (if_pos hepoch)
  | visit item v => exact exec_visit item hepoch model stats w

/-- **Performing tasks means to take their course and to enter its notes.** -/
theorem exec_performAll {ts : List (Task Item)} (hepochs : ∀ t ∈ ts, t.epoch < lastEpoch)
    (model : Model S α) (stats : LearningStats) (w : W) :
    exec (l.performAll ts) (⟨model, stats⟩, w) = (l.course ts model w).entered stats := by
  induction ts generalizing model stats w with
  | nil => rfl
  | cons t ts ih =>
    obtain ⟨hepoch, hepochs⟩ := List.forall_mem_cons.1 hepochs
    rw [performAll, exec_bind, exec_perform hepoch, course]
    rcases l.outcome t model w with ⟨e | u, model', w', notes⟩
    · rfl
    · simp only [Outcome.entered, Outcome.andThen, LearningStats.enterAll_append]
      exact ih hepochs model' _ w'

theorem train_eq_course (model : Model S α) (w : W) :
    (l.train items model).run w =
      let o := l.course (l.tasks items) model w
      ((o.result.map fun _ => LearningStats.enterAll {} o.notes, o.model), o.world) := by
  rw [train_eq, exec_performAll fun t => epoch_lt_of_mem_tasks]
  rfl

/-- **Courses compose.** -/
theorem course_append (ts us : List (Task Item)) (model : Model S α) (w : W) :
    l.course (ts ++ us) model w = (l.course ts model w).andThen (l.course us) := by
  induction ts generalizing model w with
  | nil => simp [course, Outcome.andThen]
  | cons t ts ih =>
    rw [List.cons_append, course, course, Outcome.andThen_assoc]
    congr 1
    funext model w
    exact ih model w

end Learner

/-! ### Other numbers -/

/-- New numbers for items and epochs. -/
structure Renumbering where
  /-- The new number of an item. -/
  item : Nat → Nat := id
  /-- The new number of an epoch. -/
  epoch : Nat → Nat := id

namespace Renumbering

/-- The visit with new numbers. -/
def visit (f : Renumbering) (v : Visit) : Visit := ⟨f.item v.item, f.epoch v.epoch⟩

/-- The task with new numbers. -/
def task (f : Renumbering) : Task Item → Task Item
  | .beginEpoch epoch => .beginEpoch (f.epoch epoch)
  | .visit item v => .visit item (f.visit v)

/-- The note with new numbers. -/
def note (f : Renumbering) : Note → Note
  | .beginEpoch epoch => .beginEpoch (f.epoch epoch)
  | .mark m v => .mark m (f.visit v)

theorem mark_mem_map_note (f : Renumbering) {notes : List Note} {m : Mark} {v : Visit} :
    .mark m v ∈ notes.map f.note ↔ ∃ u, .mark m u ∈ notes ∧ f.visit u = v := by
  rw [List.mem_map]
  constructor
  · rintro ⟨epoch | ⟨m', u⟩, hmem, heq⟩
    · cases heq
    · cases heq
      exact ⟨u, hmem, rfl⟩
  · rintro ⟨u, hmem, rfl⟩
    exact ⟨_, hmem, rfl⟩

end Renumbering

namespace Learner

variable [Zero α] [One α] [Add α] [Neg α] [Mul α] [Div α] [NatCast α] [LT α] [DecidableLT α] [LE α]
  [DecidableLE α] [BEq α] [OfScientific α] [ScoreRange α]
  {l : Learner (StateM W) Item S L α}

theorem outcome_renumber (f : Renumbering) (t : Task Item) (model : Model S α) (w : W) :
    l.outcome (f.task t) model w = (l.outcome t model w).mapNotes (List.map f.note) := by
  cases t with
  | beginEpoch epoch => rfl
  | visit item v =>
    simp only [Renumbering.task, outcome, Outcome.mapNotes, List.map_map]
    rfl

/-- **The numbers of items and epochs reach nothing but the notes.** -/
theorem course_renumber (f : Renumbering) (ts : List (Task Item)) (model : Model S α) (w : W) :
    l.course (ts.map f.task) model w = (l.course ts model w).mapNotes (List.map f.note) := by
  induction ts generalizing model w with
  | nil => rfl
  | cons t ts ih =>
    rw [List.map_cons, course, course, Outcome.mapNotes_andThen fun _ _ => List.map_append,
      outcome_renumber]
    congr 1
    funext model w
    exact ih model w

/-! ### Where notes come from -/

variable {ts : List (Task Item)} {t : Task Item} {model : Model S α} {w : W} {n : Note}

theorem course_cons_of_error {e : LearningError α} (h : (l.outcome t model w).result = .error e) :
    l.course (t :: ts) model w = l.outcome t model w := by
  rw [course, Outcome.andThen_of_error h]

theorem notes_course_cons_of_ok (h : (l.outcome t model w).result = .ok ()) :
    (l.course (t :: ts) model w).notes = (l.outcome t model w).notes ++
      (l.course ts (l.outcome t model w).model (l.outcome t model w).world).notes := by
  rw [course, Outcome.andThen_of_ok h]

theorem notes_outcome_subset_notes_course (ts : List (Task Item)) :
    (l.outcome t model w).notes ⊆ (l.course (t :: ts) model w).notes := by
  rcases ht : (l.outcome t model w).result with e | u
  · rw [course_cons_of_error ht]
    exact List.Subset.refl _
  · rw [notes_course_cons_of_ok ht]
    exact List.subset_append_left _ _

/-- **A note comes from one of the tasks**, along with the other notes of that task. -/
theorem exists_outcome_of_mem_notes (h : n ∈ (l.course ts model w).notes) :
    ∃ t ∈ ts, ∃ model' w', n ∈ (l.outcome t model' w').notes ∧
      (l.outcome t model' w').notes ⊆ (l.course ts model w).notes := by
  induction ts generalizing model w with
  | nil => cases h
  | cons t ts ih =>
    by_cases hn : n ∈ (l.outcome t model w).notes
    · exact ⟨t, List.mem_cons_self, model, w, hn, notes_outcome_subset_notes_course ts⟩
    · rcases ht : (l.outcome t model w).result with e | u
      · rw [course_cons_of_error ht] at h
        exact absurd h hn
      · rw [notes_course_cons_of_ok ht] at h ⊢
        obtain ⟨t', ht', model', w', hmem, hsubset⟩ := ih ((List.mem_append.1 h).resolve_left hn)
        exact ⟨t', List.mem_cons_of_mem t ht', model', w', hmem,
          List.subset_append_of_subset_right _ hsubset⟩

/-- **A course that succeeds has the notes of each task.** -/
theorem exists_outcome_of_mem_tasks (hok : (l.course ts model w).result = .ok ()) (ht : t ∈ ts) :
    ∃ model' w', (l.outcome t model' w').notes ⊆ (l.course ts model w).notes := by
  induction ts generalizing model w with
  | nil => cases ht
  | cons first ts ih =>
    rcases List.mem_cons.1 ht with rfl | ht
    · exact ⟨model, w, notes_outcome_subset_notes_course ts⟩
    · rcases hfirst : (l.outcome first model w).result with e | u
      · rw [course_cons_of_error hfirst, hfirst] at hok
        cases hok
      · rw [notes_course_cons_of_ok hfirst]
        rw [course, Outcome.andThen_of_ok hfirst] at hok
        obtain ⟨model', w', hsubset⟩ := ih hok ht
        exact ⟨model', w', List.subset_append_of_subset_right _ hsubset⟩

end Learner

end LogicalForms
