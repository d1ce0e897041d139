/-!
# Why a text is not a logical form

`ReadError` names the causes, and `ReadError.message` says each in words.
-/

namespace LogicalForms

/-- What makes a text unreadable. -/
inductive ReadError where
  /-- The text is not a sequence of nested expressions; `report` points at the place. -/
  | unreadable (report : String)
  /-- The text holds `count` expressions where one is expected. -/
  | notSingle (count : Nat)
  /-- A type tag is neither a name nor of the form `<arg,res>`. -/
  | badType (tag : String)
  /-- A constant is not of the form `name:type`. -/
  | badConstant (text : String)
  /-- A lambda is not of the form `(lambda $name:type body)`. -/
  | badLambda (text : String)
  /-- A variable is referred to without a binder or a type. -/
  | unbound (reference : String)
  /-- A list holds no argument. -/
  | noArguments (text : String)
  deriving DecidableEq

/-- The cause in words. -/
def ReadError.message : ReadError → String
  | .unreadable report => "could not read expression: " ++ report
  | .notSingle count =>
    s!"could not read expression: expected exactly one expression, found {count}"
  | .badType tag => "invalid type tag: " ++ tag
  | .badConstant text => "invalid constant: " ++ text
  | .badLambda text => "invalid lambda: " ++ text
  | .unbound reference => "unbound variable: " ++ reference
  | .noArguments text => "literal without arguments: " ++ text

end LogicalForms
