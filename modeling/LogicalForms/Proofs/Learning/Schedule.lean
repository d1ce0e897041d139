import LogicalForms.Proofs.Learning.Update

/-!
# The schedule of training

Training works through a list of tasks that is known in advance (`Learner.train_eq`): each epoch
begins, and then every item is visited in order.  No visit is scheduled twice
(`nodup_visits_schedule`).

* `Learner.epoch_lt_of_mem_tasks` — the number of epochs does not overflow in any task of training.
* `Learner.performAll_append` — a run can be cut at any task.
* `Learner.exists_of_performAll_error` — a run that fails does so at one task, after the tasks
  before it have all been done.
-/

namespace LogicalForms

variable {m : Type → Type} {Item S L α W : Type}

/-! ### Tasks -/

/-- What training does at one time. -/
inductive Task (Item : Type) where
  /-- An epoch begins. -/
  | beginEpoch (epoch : Nat)
  /-- An item is visited. -/
  | visit (item : Item) (v : Visit)

namespace Task

/-- The visit of a task. -/
def visit? : Task Item → Option Visit
  | .beginEpoch _ => none
  | .visit _ v => some v

/-- The epoch of a task. -/
def epoch : Task Item → Nat
  | .beginEpoch epoch => epoch
  | .visit _ v => v.epoch

end Task

/-- The visits of the items from `position` on. -/
def visitsFrom (epoch : Nat) : (position : Nat) → List Item → List (Task Item)
  | _, [] => []
  | position, item :: items =>
    .visit item ⟨position, epoch⟩ :: visitsFrom epoch (position + 1) items

/-- The tasks of `count` epochs, numbered from `first` on. -/
def schedule (items : List Item) : (first count : Nat) → List (Task Item)
  | _, 0 => []
  | first, count + 1 =>
    .beginEpoch first :: visitsFrom first 0 items ++ schedule items (first + 1) count

theorem mem_visits_visitsFrom {epoch position : Nat} {items : List Item} {v : Visit}
    (h : v ∈ (visitsFrom epoch position items).filterMap Task.visit?) :
    v.epoch = epoch ∧ position ≤ v.item ∧ v.item < position + items.length := by
  induction items generalizing position with
  | nil => simp [visitsFrom] at h
  | cons item items ih =>
    simp only [visitsFrom, List.filterMap_cons, Task.visit?, List.mem_cons] at h
    rw [List.length_cons]
    rcases h with rfl | h
    · exact ⟨rfl, Nat.le_refl _, by simp⟩
    · obtain ⟨hepoch, hle, hlt⟩ := ih h
      exact ⟨hepoch, by omega, by omega⟩

theorem nodup_visits_visitsFrom (epoch position : Nat) (items : List Item) :
    ((visitsFrom epoch position items).filterMap Task.visit?).Nodup := by
  induction items generalizing position with
  | nil => simp [visitsFrom]
  | cons item items ih =>
    simp only [visitsFrom, List.filterMap_cons, Task.visit?, List.nodup_cons]
    refine ⟨fun h => ?_, ih (position + 1)⟩
    have hle := (mem_visits_visitsFrom h).2.1
    simp only at hle
    omega

theorem mem_visits_schedule {items : List Item} {first count : Nat} {v : Visit}
    (h : v ∈ (schedule items first count).filterMap Task.visit?) :
    first ≤ v.epoch ∧ v.epoch < first + count ∧ v.item < items.length := by
  induction count generalizing first with
  | zero => simp [schedule] at h
  | succ count ih =>
    simp only [schedule, List.cons_append, List.filterMap_cons, Task.visit?, List.filterMap_append,
      List.mem_append] at h
    rcases h with h | h
    · obtain ⟨hepoch, -, hlt⟩ := mem_visits_visitsFrom h
      omega
    · obtain ⟨hfirst, hlast, hlt⟩ := ih h
      omega

/-- **No visit is scheduled twice.** -/
theorem nodup_visits_schedule (items : List Item) (first count : Nat) :
    ((schedule items first count).filterMap Task.visit?).Nodup := by
  induction count generalizing first with
  | zero => simp [schedule]
  | succ count ih =>
    simp only [schedule, List.cons_append, List.filterMap_cons, Task.visit?, List.filterMap_append]
    rw [List.nodup_append]
    refine ⟨nodup_visits_visitsFrom first 0 items, ih (first + 1), fun v hv w hw hvw => ?_⟩
    -- the visits of later epochs have larger epochs
    have hepoch := (mem_visits_visitsFrom hv).1
    have hlater := (mem_visits_schedule hw).1
    rw [← hvw] at hlater
    omega

theorem visit_mem_visitsFrom_iff {epoch position : Nat} {items : List Item} {item : Item}
    {v : Visit} :
    .visit item v ∈ visitsFrom epoch position items ↔
      v.epoch = epoch ∧ position ≤ v.item ∧ items[v.item - position]? = some item := by
  induction items generalizing position with
  | nil => simp [visitsFrom]
  | cons first items ih =>
    rw [visitsFrom, List.mem_cons, ih]
    constructor
    · rintro (h | ⟨hepoch, hle, hitem⟩)
      · cases h
        simp
      · -- a later item, one place further on
        obtain ⟨n, hn⟩ : ∃ n, v.item = position + 1 + n := ⟨v.item - (position + 1), by omega⟩
        rw [hn, Nat.add_sub_cancel_left] at hitem
        rw [hn, show position + 1 + n - position = n + 1 by omega, List.getElem?_cons_succ]
        exact ⟨hepoch, by omega, hitem⟩
    · rintro ⟨rfl, hle, hitem⟩
      by_cases hv : v.item = position
      · rw [hv, Nat.sub_self, List.getElem?_cons_zero, Option.some.injEq] at hitem
        exact .inl (by rw [hitem, ← hv])
      · rw [show v.item - position = v.item - (position + 1) + 1 by omega,
          List.getElem?_cons_succ] at hitem
        exact .inr ⟨rfl, by omega, hitem⟩

theorem visit_mem_schedule_iff {items : List Item} {first count : Nat} {item : Item} {v : Visit} :
    .visit item v ∈ schedule items first count ↔
      first ≤ v.epoch ∧ v.epoch < first + count ∧ items[v.item]? = some item := by
  induction count generalizing first with
  | zero =>
    simp only [schedule, List.not_mem_nil, false_iff]
    omega
  | succ count ih =>
    rw [schedule, List.cons_append, List.mem_cons, List.mem_append, visit_mem_visitsFrom_iff, ih,
      Nat.sub_zero]
    constructor
    · rintro (h | ⟨rfl, -, hitem⟩ | ⟨hle, hlt, hitem⟩)
      · cases h
      · exact ⟨Nat.le_refl _, by omega, hitem⟩
      · exact ⟨by omega, by omega, hitem⟩
    · rintro ⟨hle, hlt, hitem⟩
      by_cases hfirst : v.epoch = first
      · exact .inr (.inl ⟨hfirst, Nat.zero_le _, hitem⟩)
      · exact .inr (.inr ⟨by omega, by omega, hitem⟩)

theorem beginEpoch_notMem_visitsFrom (epoch first position : Nat) (items : List Item) :
    .beginEpoch epoch ∉ visitsFrom first position items := by
  induction items generalizing position with
  | nil => simp [visitsFrom]
  | cons item items ih => simp [visitsFrom, ih]

theorem beginEpoch_mem_schedule_iff {items : List Item} {first count epoch : Nat} :
    .beginEpoch epoch ∈ schedule items first count ↔ first ≤ epoch ∧ epoch < first + count := by
  induction count generalizing first with
  | zero =>
    simp only [schedule, List.not_mem_nil, false_iff]
    omega
  | succ count ih =>
    rw [schedule, List.cons_append, List.mem_cons, List.mem_append, ih, Task.beginEpoch.injEq]
    have hnone := beginEpoch_notMem_visitsFrom epoch first 0 items
    simp only [hnone, false_or]
    omega

theorem epoch_of_mem_schedule {items : List Item} {first count : Nat} {t : Task Item}
    (h : t ∈ schedule items first count) : first ≤ t.epoch ∧ t.epoch < first + count := by
  cases t with
  | beginEpoch epoch => exact beginEpoch_mem_schedule_iff.1 h
  | visit item v =>
    obtain ⟨hle, hlt, -⟩ := visit_mem_schedule_iff.1 h
    exact ⟨hle, hlt⟩

/-! ### Performing tasks -/

theorem exec_write (note : Note) (s : Situation S α W) :
    exec (Training.record (·.write note)) s =
      if note.epoch < lastEpoch then (.ok (), s.1.enter note, s.2) else (.error .overflow, s) := by
  rw [exec_record, Progress.record_write]
  split_ifs <;> rfl

namespace Learner

/-- The tasks of training. -/
def tasks (l : Learner m Item S L α) (items : List Item) : List (Task Item) :=
  schedule items 0 l.params.epochs.toNat

theorem epoch_lt_of_mem_tasks {l : Learner m Item S L α} {items : List Item} {t : Task Item}
    (h : t ∈ l.tasks items) : t.epoch < lastEpoch := by
  have hepoch := (epoch_of_mem_schedule h).2
  have hcount := l.params.epochs.toNat_lt_size
  rw [lt_lastEpoch_iff]
  omega

variable [Zero α] [One α] [Add α] [Neg α] [Mul α] [Div α] [NatCast α] [LT α] [DecidableLT α] [LE α]
  [DecidableLE α] [BEq α] [OfScientific α] [ScoreRange α]

/-- Performs one task. -/
def perform [Monad m] (l : Learner m Item S L α) : Task Item → Training m S α Unit
  | .beginEpoch epoch => Training.record (·.beginEpoch epoch)
  | .visit item v => l.visit item v

/-- Performs tasks in order. -/
def performAll [Monad m] (l : Learner m Item S L α) : List (Task Item) → Training m S α Unit
  | [] => return
  | t :: ts => do
    l.perform t
    l.performAll ts

variable {l : Learner (StateM W) Item S L α} {items : List Item}

theorem exec_beginEpoch (epoch : Nat) (s : Situation S α W) :
    exec (l.perform (.beginEpoch epoch)) s =
      if epoch < lastEpoch then (.ok (), s.1.enter (.beginEpoch epoch), s.2)
      else (.error .overflow, s) :=
  exec_write (.beginEpoch epoch) s

theorem exec_visit_of_rejects {item : Item} (hrejects : ¬l.accepts item = true) (v : Visit)
    (s : Situation S α W) :
    exec (l.visit item v) s =
      if v.epoch < lastEpoch then (.ok (), s.1.enter (.mark .skipped v), s.2)
      else (.error .overflow, s) := by
  rw [visit, if_neg hrejects]
  exact exec_write (.mark .skipped v) s

theorem performAll_append (ts us : List (Task Item)) :
    l.performAll (ts ++ us) = (do
      l.performAll ts
      l.performAll us) := by
  induction ts with
  | nil => simp [performAll]
  | cons t ts ih => simp only [List.cons_append, performAll, ih, bind_assoc]

theorem performAll_visitsFrom (epoch position : Nat) (items : List Item) :
    l.performAll (visitsFrom epoch position items) = l.visitFrom epoch position items := by
  induction items generalizing position with
  | nil => rfl
  | cons item items ih =>
    simp only [visitsFrom, performAll, visitFrom, perform, ih]

theorem performAll_schedule (items : List Item) (first count : Nat) :
    l.performAll (schedule items first count) = l.runEpochs items first count := by
  induction count generalizing first with
  | zero => rfl
  | succ count ih =>
    rw [schedule, performAll_append, performAll, performAll_visitsFrom, ih, runEpochs, runEpoch]
    rfl

/-- **Training performs its tasks.** -/
theorem train_eq (model : Model S α) (w : W) :
    (l.train items model).run w =
      match exec (l.performAll (l.tasks items)) (⟨model, {}⟩, w) with
      | (result, p, w') => ((result.map fun _ => p.stats, p.model), w') := by
  rw [tasks, performAll_schedule]
  rfl

theorem exists_of_performAll_cons_ok {t : Task Item} {ts : List (Task Item)}
    {s s' : Situation S α W} (h : exec (l.performAll (t :: ts)) s = (.ok (), s')) :
    ∃ s₁, exec (l.perform t) s = (.ok (), s₁) ∧ exec (l.performAll ts) s₁ = (.ok (), s') := by
  rw [performAll, exec_bind] at h
  split at h
  · next u s₁ ht => exact ⟨s₁, ht, h⟩
  · cases h

/-- **A run that fails does so at one task.** -/
theorem exists_of_performAll_error {ts : List (Task Item)} {s s' : Situation S α W}
    {e : LearningError α} (h : exec (l.performAll ts) s = (.error e, s')) :
    ∃ done t rest s₁, ts = done ++ t :: rest ∧ exec (l.performAll done) s = (.ok (), s₁) ∧
      exec (l.perform t) s₁ = (.error e, s') := by
  induction ts generalizing s with
  | nil => cases h
  | cons t ts ih =>
    rw [performAll, exec_bind] at h
    split at h
    · next u s₁ ht =>
      obtain ⟨done, t', rest, s₂, rfl, hdone, ht'⟩ := ih h
      refine ⟨t :: done, t', rest, s₂, rfl, ?_, ht'⟩
      rw [performAll, exec_bind_of_ok ht, hdone]
    · next e' s₁ ht =>
      cases h
      exact ⟨[], t, ts, s, rfl, rfl, ht⟩

end Learner

end LogicalForms
