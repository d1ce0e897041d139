import LogicalForms.Score.Basic

/-!
# The best of several

* `larger` and `largest?` take no notice of a number that is not equal to itself, as long as there
  is another one.
* `bestBy` selects everything that ties for the largest score.
* `scanBest` does the same in one pass.  The two differ when the first score is not equal to itself:
  nothing compares with it, so the scan never leaves it.
* `scanFrom` is such a pass in which a score also has to reach a given one.
-/

namespace LogicalForms

variable {α β : Type} [LT α] [DecidableLT α] [BEq α]

/-- The larger of two numbers; if one of them is not equal to itself, the other one. -/
def larger (a b : α) : α :=
  if a < b then b else if a == a then a else b

/-- The largest of the numbers, if there is one. -/
def largest? : List α → Option α
  | [] => none
  | x :: xs => some (xs.foldl larger x)

/-- The members that tie for the largest score, in order. -/
def bestBy (score : β → α) (xs : List β) : List β :=
  match largest? (xs.map score) with
  | none => []
  | some top => xs.filter fun x => score x == top

theorem map_bestBy {γ : Type} (f : γ → β) (score : β → α) (xs : List γ) :
    (bestBy (fun x => score (f x)) xs).map f = bestBy score (xs.map f) := by
  simp only [bestBy, List.map_map, Function.comp_def]
  cases largest? (xs.map fun x => score (f x)) with
  | none => rfl
  | some top => simp [List.filter_map, Function.comp_def]

/-- One step of `scanBest`: a larger score replaces what is kept, an equal one is kept as well. -/
def scanStep (score : β → α) (kept : α × List β) (x : β) : α × List β :=
  if kept.1 < score x then (score x, [x])
  else if score x == kept.1 then (kept.1, kept.2 ++ [x])
  else kept

/-- The members kept by a scan that starts with the first one. -/
def scanBest (score : β → α) : List β → List β
  | [] => []
  | x :: xs => (xs.foldl (scanStep score) (score x, [x])).2

/-- The members kept by a scan that starts with nothing but a score to reach. -/
def scanFrom (start : α) (score : β → α) (xs : List β) : List β :=
  (xs.foldl (scanStep score) (start, [])).2

end LogicalForms
