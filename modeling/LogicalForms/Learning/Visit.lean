/-!
# Visits

During training every data item is visited once in every epoch.  A `Visit` names an item and an
epoch, and a `VisitSet` is a finite set of visits, kept in ascending order.
-/

namespace LogicalForms

/-- One data item in one epoch. -/
structure Visit where
  /-- The position of the item in the data. -/
  item : Nat
  /-- The number of the epoch. -/
  epoch : Nat
  deriving DecidableEq

namespace Visit

/-- Visits are ordered by item first and epoch second. -/
instance : LT Visit := ⟨fun v w => v.item < w.item ∨ v.item = w.item ∧ v.epoch < w.epoch⟩

instance (v w : Visit) : Decidable (v < w) :=
  inferInstanceAs (Decidable (v.item < w.item ∨ v.item = w.item ∧ v.epoch < w.epoch))

theorem lt_def {v w : Visit} :
    v < w ↔ v.item < w.item ∨ v.item = w.item ∧ v.epoch < w.epoch := Iff.rfl

theorem lt_irrefl (v : Visit) : ¬v < v := by simp [lt_def]

theorem lt_trans {u v w : Visit} (h : u < v) (h' : v < w) : u < w := by
  rw [lt_def] at *
  omega

theorem lt_of_not_lt_of_ne {v w : Visit} (h : ¬v < w) (hne : v ≠ w) : w < v := by
  have : ¬(v.item = w.item ∧ v.epoch = w.epoch) := fun ⟨hi, he⟩ =>
    hne (by cases v; cases w; simp_all)
  rw [lt_def] at *
  omega

/-- Puts a visit at its place in an ascending list, unless it is there. -/
def insertInto (v : Visit) : List Visit → List Visit
  | [] => [v]
  | w :: ws => if v = w then w :: ws else if v < w then v :: w :: ws else w :: insertInto v ws

theorem mem_insertInto {u v : Visit} {ws : List Visit} :
    u ∈ insertInto v ws ↔ u = v ∨ u ∈ ws := by
  induction ws with
  | nil => simp [insertInto]
  | cons w ws ih =>
    simp only [insertInto]
    split
    · next h =>
      subst h
      simp
    · split
      · simp
      · simp only [List.mem_cons, ih]
        exact or_left_comm

theorem ascending_insertInto (v : Visit) {ws : List Visit} (h : ws.Pairwise (· < ·)) :
    (insertInto v ws).Pairwise (· < ·) := by
  induction ws with
  | nil => simp [insertInto]
  | cons w ws ih =>
    obtain ⟨hw, hws⟩ := List.pairwise_cons.1 h
    simp only [insertInto]
    split
    · exact h
    · next hne =>
      split
      · next hlt =>
        refine List.pairwise_cons.2 ⟨fun u hu => ?_, h⟩
        rcases List.mem_cons.1 hu with rfl | hu
        · exact hlt
        · exact lt_trans hlt (hw u hu)
      · next hlt =>
        refine List.pairwise_cons.2 ⟨fun u hu => ?_, ih hws⟩
        rcases mem_insertInto.1 hu with rfl | hu
        · exact lt_of_not_lt_of_ne hlt hne
        · exact hw u hu

end Visit

/-- A finite set of visits. -/
structure VisitSet where
  /-- The visits in ascending order. -/
  visits : List Visit
  ascending : visits.Pairwise (· < ·)
  deriving DecidableEq

namespace VisitSet

instance : EmptyCollection VisitSet := ⟨⟨[], .nil⟩⟩

instance : Membership Visit VisitSet := ⟨fun s v => v ∈ s.visits⟩

instance (v : Visit) (s : VisitSet) : Decidable (v ∈ s) :=
  inferInstanceAs (Decidable (v ∈ s.visits))

/-- Adds a visit. -/
def insert (s : VisitSet) (v : Visit) : VisitSet :=
  ⟨v.insertInto s.visits, v.ascending_insertInto s.ascending⟩

/-- The number of visits in an epoch. -/
def countIn (s : VisitSet) (epoch : Nat) : Nat := s.visits.countP fun v => v.epoch = epoch

@[simp] theorem not_mem_empty (v : Visit) : v ∉ (∅ : VisitSet) := List.not_mem_nil

@[simp] theorem mem_insert {s : VisitSet} {u v : Visit} : u ∈ s.insert v ↔ u = v ∨ u ∈ s :=
  Visit.mem_insertInto

end VisitSet

end LogicalForms
