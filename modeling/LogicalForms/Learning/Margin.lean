import LogicalForms.Parse.Output

/-!
# Margin violations

A valid and an invalid derivation violate the margin when the weights do not separate them by
`margin` times the l₁ norm of the difference of their features (`violatesMargin`).  `violations`
finds the derivations that take part in a violation, for any test of pairs.
-/

namespace LogicalForms

variable {α δ : Type}

/-- The pair is not separated by the margin. -/
def violatesMargin [Zero α] [One α] [Add α] [Neg α] [Mul α] [LT α] [DecidableLT α]
    (theta : FeatureVector α) (margin : α) (valid invalid : Derivation α) : Bool :=
  let δ := valid.features.addTimes (-1) invalid.features
  δ.dot theta < margin * δ.l1Norm

/-- The positions of the invalid derivations that violate the test together with `v`. -/
def violatedBy (test : δ → δ → Bool) (invalid : List δ) (v : δ) : List (Fin invalid.length) :=
  (List.finRange invalid.length).filter fun j => test v invalid[j]

/-- The members of both lists that take part in a violation of the test.  Valid ones keep their
order; invalid ones come in the order of their first violation. -/
def violations (test : δ → δ → Bool) (valid invalid : List δ) : List δ × List δ :=
  (valid.filter fun v => !(violatedBy test invalid v).isEmpty,
    (valid.flatMap (violatedBy test invalid)).eraseDups.map fun j => invalid[j])

end LogicalForms
