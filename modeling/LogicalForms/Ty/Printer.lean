import LogicalForms.Ty.Basic

/-!
# Printing types

A type tag is how a type is written inside logical forms:

* `Ty.tag` writes a function type as `<arg,res>` and an atomic type as its name;
* everything else has no notation of its own there and is written applicatively (`Ty.applied`): a
  type variable as `tN`, an applied constructor as `name(A,B)`, and inside of it a function as
  `A → B`, in parentheses only when it stands left of an arrow.

The constructor `→` counts as a function type as soon as it has an argument and a result.  Both
notations have room for these two, so any arguments after them are not shown.
-/

namespace LogicalForms.Ty

mutual

/-- The applicative form of a type; `right` tells that it does not stand left of an arrow. -/
def applied (right : Bool) : Ty → String
  | .var n => s!"t{n}"
  | .con "→" (arg :: res :: _) =>
    let shown := applied false arg ++ " → " ++ applied true res
    if right then shown else "(" ++ shown ++ ")"
  | .con name [] => name
  | .con name (a :: as) => name ++ "(" ++ applied true a ++ appliedTail as ++ ")"

/-- The further arguments of a constructor, each after a comma. -/
def appliedTail : List Ty → String
  | [] => ""
  | a :: as => "," ++ applied true a ++ appliedTail as

end

/-- The tag of a type. -/
def tag : Ty → String
  | .con "→" (arg :: res :: _) => "<" ++ arg.tag ++ "," ++ res.tag ++ ">"
  | ty => ty.applied true

@[simp] theorem tag_arrow (arg res : Ty) :
    (arrow arg res).tag = "<" ++ arg.tag ++ "," ++ res.tag ++ ">" := by
  rw [tag]

@[simp] theorem tag_atom (name : String) : (atom name).tag = name := by
  simp [tag, applied]

end LogicalForms.Ty
