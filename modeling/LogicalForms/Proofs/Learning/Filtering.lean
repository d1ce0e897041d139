import LogicalForms.Proofs.Learning.Statistics

/-!
# Filtering is removing

The filter of a learner only decides which visits are made.  A visit that is not made leaves behind
nothing but the note that the item was skipped, so the course of training is, but for these notes,
the course of the accepted tasks without a filter (`Learner.course_withFilter`).  These are the
tasks for the accepted items by themselves, with other numbers (`filter_admits_schedule`), and
numbers reach nothing but the notes.  So training with a filter comes to the same as training on the
accepted items alone (`Learner.train_withFilter`).
-/

namespace LogicalForms

variable {Item S L α W : Type} {f : Item → Bool}

/-! ### Accepted tasks -/

namespace Task

/-- The task is not the visit of an item that `f` rejects. -/
def admits (f : Item → Bool) : Task Item → Bool
  | .beginEpoch _ => true
  | .visit item _ => f item

end Task

theorem filter_admits_visitsFrom {ρ : Renumbering} (hepoch : ρ.epoch = id) (epoch : Nat)
    {position start : Nat} {items : List Item}
    (hitem : ∀ i j, (items.findIdxs f position)[i]? = some j → ρ.item (start + i) = j) :
    (visitsFrom epoch position items).filter (Task.admits f) =
      (visitsFrom epoch start (items.filter f)).map ρ.task := by
  induction items generalizing position start with
  | nil => rfl
  | cons item items ih =>
    rw [List.findIdxs_cons] at hitem
    rw [visitsFrom, List.filter_cons, List.filter_cons, Task.admits]
    split_ifs at hitem ⊢ with haccepts
    · -- the next item of the shorter list, at `start`
      have hfirst : ρ.visit ⟨start, epoch⟩ = ⟨position, epoch⟩ := by
        rw [Renumbering.visit, hepoch, ← hitem 0 position rfl]
        rfl
      rw [visitsFrom, List.map_cons, Renumbering.task, hfirst, ih]
      intro i j hj
      rw [Nat.add_right_comm, Nat.add_assoc]
      exact hitem (i + 1) j (by rwa [List.getElem?_cons_succ])
    · exact ih hitem

/-- **The accepted tasks are those for the accepted items**, with other numbers. -/
theorem filter_admits_schedule {ρ : Renumbering} (hepoch : ρ.epoch = id) {items : List Item}
    (hitem : ∀ i j, (items.findIdxs f)[i]? = some j → ρ.item i = j) (first count : Nat) :
    (schedule items first count).filter (Task.admits f) =
      (schedule (items.filter f) first count).map ρ.task := by
  induction count generalizing first with
  | zero => rfl
  | succ count ih =>
    have hvisits : (visitsFrom first 0 items).filter (Task.admits f) =
        (visitsFrom first 0 (items.filter f)).map ρ.task :=
      filter_admits_visitsFrom hepoch first fun i j hj => by rw [Nat.zero_add, hitem i j hj]
    have hbegin : ρ.task (.beginEpoch first : Task Item) = .beginEpoch first := by
      rw [Renumbering.task, hepoch]
      rfl
    rw [schedule, schedule, List.filter_append, List.filter_cons_of_pos rfl, hvisits, ih,
      List.map_append, List.map_cons, hbegin]

/-! ### Skipped visits -/

/-- The note is about a skipped visit. -/
def Note.isSkip : Note → Bool
  | .mark .skipped _ => true
  | _ => false

namespace Outcome

/-- The outcome without the notes about skipped visits. -/
def withoutSkips (o : Outcome S α W Note) : Outcome S α W Note :=
  o.mapNotes (List.filter fun note => !note.isSkip)

theorem withoutSkips_andThen (o : Outcome S α W Note) (next : Model S α → W → Outcome S α W Note) :
    (o.andThen next).withoutSkips =
      o.withoutSkips.andThen fun model w => (next model w).withoutSkips :=
  mapNotes_andThen (fun _ _ => List.filter_append _ _) o next

end Outcome

namespace Learner

/-- The learner with another filter. -/
def withFilter {m : Type → Type} (l : Learner m Item S L α) (filter : Option (Item → Bool)) :
    Learner m Item S L α :=
  { l with filter := filter }

variable [Zero α] [One α] [Add α] [Neg α] [Mul α] [Div α] [NatCast α] [LT α] [DecidableLT α] [LE α]
  [DecidableLE α] [BEq α] [OfScientific α] [ScoreRange α]
  (l : Learner (StateM W) Item S L α)

theorem visited_of_accepts {item : Item} (h : f item = true) (model : Model S α) (w : W) :
    (l.withFilter (some f)).visited item model w = (l.withFilter none).visited item model w := by
  have haccepts : (l.withFilter (some f)).accepts item = true := h
  rw [visited, if_pos haccepts]
  rfl

theorem visited_of_rejects {item : Item} (h : f item = false) (model : Model S α) (w : W) :
    (l.withFilter (some f)).visited item model w = ⟨.ok (), model, w, [.skipped]⟩ := by
  have hrejects : ¬(l.withFilter (some f)).accepts item = true := ne_true_of_eq_false h
  rw [visited, if_neg hrejects]

theorem outcome_of_admits {t : Task Item} (h : t.admits f = true) (model : Model S α) (w : W) :
    ((l.withFilter (some f)).outcome t model w).withoutSkips =
      (l.withFilter none).outcome t model w := by
  cases t with
  | beginEpoch epoch => rfl
  | visit item v =>
    rw [outcome, visited_of_accepts l h]
    -- without a filter nothing is skipped
    rcases (l.withFilter none).notes_visited item model w with
      ⟨hrejects, -⟩ | ⟨-, hnotes | hnotes | hnotes⟩
    · cases hrejects
    all_goals
      rw [outcome, Outcome.withoutSkips, Outcome.mapNotes, Outcome.mapNotes, hnotes]
      rfl

theorem outcome_of_not_admits {t : Task Item} (h : t.admits f = false) (model : Model S α) (w : W) :
    ((l.withFilter (some f)).outcome t model w).withoutSkips = ⟨.ok (), model, w, []⟩ := by
  cases t with
  | beginEpoch epoch => cases h
  | visit item v =>
    rw [outcome, visited_of_rejects l h]
    rfl

/-- **But for the notes about skipped visits, the course with a filter is that of the accepted
tasks without one.** -/
theorem course_withFilter (f : Item → Bool) (ts : List (Task Item)) (model : Model S α) (w : W) :
    ((l.withFilter (some f)).course ts model w).withoutSkips =
      (l.withFilter none).course (ts.filter (Task.admits f)) model w := by
  induction ts generalizing model w with
  | nil => rfl
  | cons t ts ih =>
    rw [course, Outcome.withoutSkips_andThen]
    simp only [ih]
    cases hadmits : t.admits f with
    | true => rw [outcome_of_admits l hadmits, List.filter_cons_of_pos hadmits, course]
    | false =>
      rw [outcome_of_not_admits l hadmits, List.filter_cons_of_neg (by simp [hadmits]),
        Outcome.andThen_of_ok rfl, List.nil_append]

/-! ### Training -/

/-- The number in the whole data of an item of the shorter data. -/
def renumberKept (f : Item → Bool) (items : List Item) : Renumbering where
  item i := (items.findIdxs f).getD i 0

/-- **The course of training with a filter**, but for the notes about skipped visits, is the course
of training on the accepted items alone, with other numbers. -/
theorem course_tasks_withFilter (f : Item → Bool) (items : List Item) (model : Model S α) (w : W) :
    ((l.withFilter (some f)).course (l.tasks items) model w).withoutSkips =
      ((l.withFilter none).course (l.tasks (items.filter f)) model w).mapNotes
        (List.map (renumberKept f items).note) := by
  have htasks : (l.tasks items).filter (Task.admits f) =
      (l.tasks (items.filter f)).map (renumberKept f items).task :=
    filter_admits_schedule rfl (fun i j hj => by simp [renumberKept, hj]) 0 _
  rw [course_withFilter, htasks, course_renumber]

/-- An item of the shorter data has a number in the whole data. -/
theorem exists_getElem?_findIdxs {items : List Item} {i : Nat} (h : i < (items.filter f).length) :
    ∃ j, (items.findIdxs f)[i]? = some j ∧ (renumberKept f items).item i = j := by
  have hlt : i < (items.findIdxs f).length := by
    rwa [List.length_findIdxs, List.countP_eq_length_filter]
  refine ⟨_, List.getElem?_eq_getElem hlt, ?_⟩
  change (items.findIdxs f).getD i 0 = _
  rw [List.getD_eq_getElem?_getD, List.getElem?_eq_getElem hlt, Option.getD_some]

/-- **Valid parses and updates are noted for the same items.** -/
theorem mark_mem_notes_withFilter_iff {items : List Item} {model : Model S α} {w : W} {m : Mark}
    (hm : m ≠ .skipped) {j epoch : Nat} :
    .mark m ⟨j, epoch⟩ ∈ ((l.withFilter (some f)).course (l.tasks items) model w).notes ↔
      ∃ i, (items.findIdxs f)[i]? = some j ∧
        .mark m ⟨i, epoch⟩ ∈
          ((l.withFilter none).course (l.tasks (items.filter f)) model w).notes := by
  have hnotes := congrArg Outcome.notes (l.course_tasks_withFilter f items model w)
  have hnoskip : (!(Note.mark m ⟨j, epoch⟩).isSkip) = true := by
    cases m with
    | skipped => exact absurd rfl hm
    | validParse | update => rfl
  have hkept : .mark m ⟨j, epoch⟩ ∈
      ((l.withFilter (some f)).course (l.tasks items) model w).notes ↔
      .mark m ⟨j, epoch⟩ ∈
        ((l.withFilter (some f)).course (l.tasks items) model w).withoutSkips.notes := by
    rw [Outcome.withoutSkips, Outcome.mapNotes, List.mem_filter, and_iff_left hnoskip]
  rw [hkept, hnotes, Outcome.mapNotes, Renumbering.mark_mem_map_note]
  constructor
  · rintro ⟨⟨i, epoch'⟩, hmem, hvisit⟩
    obtain ⟨hj, rfl⟩ : (renumberKept f items).item i = j ∧ epoch' = epoch := Visit.mk.inj hvisit
    obtain ⟨item, hitem, -⟩ := exists_visited_of_mark_mem hmem
    obtain ⟨hlt, -⟩ := List.getElem?_eq_some_iff.1 (visit_mem_schedule_iff.1 hitem).2.2
    obtain ⟨j', hj', heq⟩ := exists_getElem?_findIdxs hlt
    exact ⟨i, by rw [hj', ← heq, hj], hmem⟩
  · rintro ⟨i, hj, hmem⟩
    refine ⟨⟨i, epoch⟩, hmem, ?_⟩
    simp [Renumbering.visit, renumberKept, hj]

theorem mark_mem_notes_of_kept {items : List Item} {m : Mark} (hm : m ≠ .skipped) {i j : Nat}
    (hj : (items.findIdxs f)[i]? = some j) (epoch : Nat) (model : Model S α) (w : W) :
    .mark m ⟨j, epoch⟩ ∈ ((l.withFilter (some f)).course (l.tasks items) model w).notes ↔
      .mark m ⟨i, epoch⟩ ∈
        ((l.withFilter none).course (l.tasks (items.filter f)) model w).notes := by
  rw [l.mark_mem_notes_withFilter_iff hm]
  constructor
  · -- an item of the whole data has one number in the shorter data
    rintro ⟨i', hj', hmem⟩
    obtain ⟨hlt, -⟩ := List.getElem?_eq_some_iff.1 hj
    obtain rfl : i = i' := (List.getElem?_inj hlt List.nodup_findIdxs).1 (hj.trans hj'.symm)
    exact hmem
  · exact fun hmem => ⟨i, hj, hmem⟩

theorem mark_notMem_notes_of_rejected {items : List Item} {m : Mark} (hm : m ≠ .skipped) {j : Nat}
    {item : Item} (hitem : items[j]? = some item) (hrejects : f item = false) (epoch : Nat)
    (model : Model S α) (w : W) :
    .mark m ⟨j, epoch⟩ ∉ ((l.withFilter (some f)).course (l.tasks items) model w).notes := by
  rw [l.mark_mem_notes_withFilter_iff hm]
  rintro ⟨i, hj, -⟩
  obtain ⟨hlt, haccepts⟩ := List.mem_findIdxs_iff_exists_getElem_pos.1 (List.mem_of_getElem? hj)
  rw [List.getElem?_eq_getElem hlt, Option.some.injEq] at hitem
  rw [hitem, hrejects] at haccepts
  cases haccepts

/-- **Filtering is removing.**  Training with a filter and training on the accepted items alone have
the same result, apart from the statistics, and leave behind the same model and world.  If they
succeed, then the same items have a valid parse, and the same items an update, in each epoch:
`items.findIdxs f` lists the numbers that the accepted items have in the whole data, in order.
Nothing of the kind is recorded for the items that the filter rejects. -/
theorem train_withFilter (f : Item → Bool) (items : List Item) (model : Model S α) (w : W) :
    ∃ (result : Except (LearningError α) (LearningStats × LearningStats)) (model' : Model S α)
      (w' : W),
      ((l.withFilter (some f)).train items model).run w = ((result.map Prod.fst, model'), w') ∧
      ((l.withFilter none).train (items.filter f) model).run w =
        ((result.map Prod.snd, model'), w') ∧
      ∀ stats stats', result = .ok (stats, stats') →
        (∀ i j, (items.findIdxs f)[i]? = some j → ∀ epoch,
          (⟨j, epoch⟩ ∈ stats.hasValidParse ↔ ⟨i, epoch⟩ ∈ stats'.hasValidParse) ∧
          (⟨j, epoch⟩ ∈ stats.triggeredUpdate ↔ ⟨i, epoch⟩ ∈ stats'.triggeredUpdate)) ∧
        ∀ j item, items[j]? = some item → f item = false → ∀ epoch,
          ⟨j, epoch⟩ ∉ stats.hasValidParse ∧ ⟨j, epoch⟩ ∉ stats.triggeredUpdate := by
  have hcourse := l.course_tasks_withFilter f items model w
  rcases hfiltered : (l.withFilter (some f)).course (l.tasks items) model w with
    ⟨result, model', w', notes⟩
  rcases hremoved : (l.withFilter none).course (l.tasks (items.filter f)) model w with
    ⟨result', model'', w'', notes'⟩
  rw [hfiltered, hremoved] at hcourse
  obtain ⟨rfl, rfl, rfl, -⟩ := Outcome.mk.inj hcourse
  have hkept : ∀ m ≠ Mark.skipped, ∀ i j, (items.findIdxs f)[i]? = some j → ∀ epoch,
      (⟨j, epoch⟩ ∈ (LearningStats.enterAll {} notes).marked m ↔
        ⟨i, epoch⟩ ∈ (LearningStats.enterAll {} notes').marked m) := by
    intro m hm i j hj epoch
    have hmem := l.mark_mem_notes_of_kept hm hj epoch model w
    rw [hfiltered, hremoved] at hmem
    rwa [LearningStats.mem_marked_enterAll_empty, LearningStats.mem_marked_enterAll_empty]
  have hrejected : ∀ m ≠ Mark.skipped, ∀ j item, items[j]? = some item → f item = false →
      ∀ epoch, ⟨j, epoch⟩ ∉ (LearningStats.enterAll {} notes).marked m := by
    intro m hm j item hitem hrejects epoch
    have hnotMem := l.mark_notMem_notes_of_rejected hm hitem hrejects epoch model w
    rw [hfiltered] at hnotMem
    rwa [LearningStats.mem_marked_enterAll_empty]
  refine ⟨result.map fun _ => (LearningStats.enterAll {} notes, LearningStats.enterAll {} notes'),
    model', w', ?_, ?_, fun stats stats' hok => ?_⟩
  · have htasks : (l.withFilter (some f)).tasks items = l.tasks items := rfl
    rw [train_eq_course, htasks, hfiltered]
    cases result <;> rfl
  · have htasks : (l.withFilter none).tasks (items.filter f) = l.tasks (items.filter f) := rfl
    rw [train_eq_course, htasks, hremoved]
    cases result <;> rfl
  · obtain ⟨rfl, rfl⟩ : LearningStats.enterAll {} notes = stats ∧
        LearningStats.enterAll {} notes' = stats' := by
      cases result with
      | error e => cases hok
      | ok u => exact Prod.mk.inj (Except.ok.inj hok)
    exact ⟨fun i j hj epoch => ⟨hkept .validParse nofun i j hj epoch,
        hkept .update nofun i j hj epoch⟩,
      fun j item hitem hrejects epoch => ⟨hrejected .validParse nofun j item hitem hrejects epoch,
        hrejected .update nofun j item hitem hrejects epoch⟩⟩

end Learner

end LogicalForms
