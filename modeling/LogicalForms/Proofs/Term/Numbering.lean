import LogicalForms.Proofs.Term.Renaming
import LogicalForms.Text.Split

/-!
# The numbers of printed variables

* The names that are written for numbers are told apart (`Numbering.name_injective`), and a name
  and a declaration can be taken apart again (`splitAtFirst_name`, `splitAtFirst_declaration`).
* Numbers are given out in increasing order (`Term.next_le_toSexpFrom`).
-/

namespace LogicalForms

open Text

namespace Numbering

/-! ### The names of numbers -/

/-- What is written for a variable with number `n`. -/
def name (n : Nat) : String := s!"${n}"

theorem toList_name (n : Nat) : (name n).toList = '$' :: Nat.toDigits 10 n := by
  have happend : name n = "$" ++ n.repr := rfl
  rw [happend, String.toList_append, Nat.toList_repr]
  rfl

theorem name_injective {m n : Nat} (h : name m = name n) : m = n := by
  have hlist := congrArg String.toList h
  rw [toList_name, toList_name, List.cons.injEq] at hlist
  have hvalue := congrArg (Nat.ofDigitChars 10 · 0) hlist.2
  simpa using hvalue

theorem colon_notMem_name (n : Nat) : ':' ∉ (name n).toList := by
  intro h
  rw [toList_name, List.mem_cons] at h
  rcases h with h | h
  · exact absurd h (by decide)
  · have hdigit := Nat.isDigit_of_mem_toDigits (by decide) (by decide) h
    exact absurd hdigit (by decide)

theorem splitAtFirst_name (n : Nat) : splitAtFirst ':' (name n).toList = none :=
  splitAtFirst_eq_none.2 (colon_notMem_name n)

end Numbering

theorem Var.toList_declaration (v : Var) (n : Nat) :
    (v.declaration n).toList = (Numbering.name n).toList ++ ':' :: v.ty.tag.toList := by
  have happend : v.declaration n = Numbering.name n ++ ":" ++ v.ty.tag := rfl
  rw [happend, String.toList_append, String.toList_append]
  simp

theorem Var.splitAtFirst_declaration (v : Var) (n : Nat) :
    splitAtFirst ':' (v.declaration n).toList =
      some ((Numbering.name n).toList, v.ty.tag.toList) := by
  rw [toList_declaration]
  exact splitAtFirst_append (Numbering.colon_notMem_name n) _

namespace Term

open LogicalForms.Numbering

theorem toSexpFrom_var (ν : Numbering) (v : Var) :
    (var v).toSexpFrom ν =
      match ν.number? v with
      | some n => (.atom (name n), ν)
      | none => (.atom (v.declaration ν.next), ν.bind v) := by
  rw [toSexpFrom]
  rfl

/-! ### Numbers that are given out -/

theorem next_le_of_forall {ts : List Term}
    (hts : ∀ t ∈ ts, ∀ ν : Numbering, ν.next ≤ (t.toSexpFrom ν).2.next) (ν : Numbering) :
    ν.next ≤ (allToSexpFrom ν ts).2.next := by
  induction ts generalizing ν with
  | nil => exact Nat.le_refl _
  | cons t ts ih =>
    rw [allToSexpFrom_cons]
    exact Nat.le_trans (hts t (by simp) ν) (ih (fun u hu => hts u (by simp [hu])) _)

theorem next_le_toSexpFrom (t : Term) (ν : Numbering) : ν.next ≤ (t.toSexpFrom ν).2.next := by
  induction t generalizing ν with
  | const c => exact Nat.le_refl _
  | var v =>
    rw [toSexpFrom_var]
    cases ν.number? v <;> simp
  | lam v body ih =>
    rw [toSexpFrom_lam]
    exact Nat.le_of_succ_le (ih (ν.bind v))
  | lit p as ihp ihas =>
    rw [toSexpFrom_lit]
    exact Nat.le_trans (ihp ν) (next_le_of_forall ihas _)

theorem next_le_allToSexpFrom (ts : List Term) (ν : Numbering) :
    ν.next ≤ (allToSexpFrom ν ts).2.next :=
  next_le_of_forall (fun t _ => next_le_toSexpFrom t) ν

end Term

end LogicalForms
