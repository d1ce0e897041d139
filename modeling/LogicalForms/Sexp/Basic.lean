/-!
# Nested expressions

Logical forms are written as nested expressions: an expression is an atom or a list of expressions
in parentheses.  `Sexp.render` writes an expression with one blank between the members of a list.
-/

namespace LogicalForms

/-- Nested expressions over atoms. -/
inductive Sexp where
  /-- A word. -/
  | atom (text : String)
  /-- Expressions in parentheses. -/
  | list (items : List Sexp)
  deriving Inhabited

namespace Sexp

mutual

/-- The text of an expression. -/
def render : Sexp → String
  | .atom text => text
  | .list [] => "()"
  | .list (e :: es) => "(" ++ render e ++ renderTail es ++ ")"

/-- The further members of a list, each after a blank. -/
def renderTail : List Sexp → String
  | [] => ""
  | e :: es => " " ++ render e ++ renderTail es

end

end Sexp

end LogicalForms
