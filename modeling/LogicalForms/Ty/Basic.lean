/-!
# Type tags

`Ty` is the type of a constant or a variable: a type constructor applied to types, or a type
variable.  Two kinds of constructed types have names of their own:

* `Ty.atom`, a constructor without arguments;
* `Ty.arrow`, the type of functions, which is the constructor `→` applied to the types of the
  argument and of the result.

Types are compared structurally; `instDecidableEq` decides it.
-/

namespace LogicalForms

/-- Types of logical forms. -/
inductive Ty where
  /-- A type constructor applied to types. -/
  | con (name : String) (args : List Ty)
  /-- The `n`-th type variable. -/
  | var (n : Nat)
  deriving Inhabited

namespace Ty

/-- The atomic type of that name. -/
abbrev atom (name : String) : Ty := .con name []

/-- The type of functions from `arg` to `res`. -/
abbrev arrow (arg res : Ty) : Ty := .con "→" [arg, res]

mutual

/-- Decides equality of types. -/
def decEq : (a b : Ty) → Decidable (a = b)
  | .con m as, .con n bs =>
    match instDecidableEqString m n, decEqList as bs with
    | isTrue h, isTrue h' => isTrue (by rw [h, h'])
    | isFalse h, _ => isFalse fun e => h (Ty.con.inj e).1
    | _, isFalse h => isFalse fun e => h (Ty.con.inj e).2
  | .var m, .var n =>
    if h : m = n then isTrue (by rw [h]) else isFalse fun e => h (Ty.var.inj e)
  | .con .., .var _ | .var _, .con .. => isFalse nofun

/-- Decides equality of lists of types. -/
def decEqList : (as bs : List Ty) → Decidable (as = bs)
  | [], [] => isTrue rfl
  | a :: as, b :: bs =>
    match decEq a b, decEqList as bs with
    | isTrue h, isTrue h' => isTrue (by rw [h, h'])
    | isFalse h, _ => isFalse fun e => h (List.cons.inj e).1
    | _, isFalse h => isFalse fun e => h (List.cons.inj e).2
  | [], _ :: _ | _ :: _, [] => isFalse nofun

end

instance instDecidableEq : DecidableEq Ty := decEq

end Ty

end LogicalForms
