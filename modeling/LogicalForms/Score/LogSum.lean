import LogicalForms.Score.Best

/-!
# Sums of masses given by logarithms

`logSumExp` adds up any number of masses and `logAddExp` two of them, all given and answered by
their logarithms.  The largest one is factored out first, so that no exponential exceeds one and the
sum cannot overflow.  Without mass the answer is −∞.
-/

namespace LogicalForms

variable {α : Type} [LT α] [DecidableLT α] [BEq α] [LogScale α]

/-- The largest of the numbers, −∞ if there is none. -/
def largest (xs : List α) : α := xs.foldl larger LogScale.negInf

variable [Zero α] [Add α] [Sub α]

/-- The logarithm of the sum of the masses with these logarithms. -/
def logSumExp (xs : List α) : α :=
  let top := largest xs
  if ScoreRange.impossible top then LogScale.negInf
  else top + LogScale.log (total (xs.map fun x => LogScale.exp (x - top)))

/-- The logarithm of the sum of the masses with logarithms `a` and `b`. -/
def logAddExp (a b : α) : α :=
  let top := larger a b
  if ScoreRange.impossible top then LogScale.negInf
  else top + LogScale.log (LogScale.exp (a - top) + LogScale.exp (b - top))

end LogicalForms
