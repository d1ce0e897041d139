/-!
# Scores

Weights, scores and feature values are numbers of one type `α`.  The library asks of it only the
operations that a definition uses, so that every definition works on doubles and on exact numbers
alike.  Beyond arithmetic there are two things that a number type has to tell:

* `ScoreRange` — which score is −∞, the score of what cannot happen, and the lowest score above it;
* `LogScale` — −∞ itself, with an exponential and a logarithm, for numbers that are used as
  logarithms of masses.
-/

namespace LogicalForms

/-- Numbers that serve as scores. -/
class ScoreRange (α : Type) where
  /-- The score is −∞. -/
  impossible : α → Bool
  /-- The lowest score of what can happen. -/
  lowest : α

/-- Numbers that serve as logarithms. -/
class LogScale (α : Type) extends ScoreRange α where
  /-- The logarithm of nothing, −∞. -/
  negInf : α
  /-- The exponential. -/
  exp : α → α
  /-- The natural logarithm. -/
  log : α → α

instance : LogScale Float where
  impossible x := x == -(1 / 0)
  lowest := -1.7976931348623157e308
  negInf := -(1 / 0)
  exp := Float.exp
  log := Float.log

instance instNatCastDouble : NatCast Float := ⟨Float.ofNat⟩

/-- The sum of the numbers, added up from the first to the last. -/
def total {α : Type} [Zero α] [Add α] (xs : List α) : α := xs.foldl (· + ·) 0

/-- The absolute value. -/
def magnitude {α : Type} [Zero α] [Neg α] [LT α] [DecidableLT α] (x : α) : α :=
  if x < 0 then -x else x

end LogicalForms
