import LogicalForms.Term.Reader

/-!
# Symbol tables

A symbol table is a list of constants, one or more to a line.  `//` starts a comment that ends with
its line; lines that hold nothing else are ignored.
-/

namespace LogicalForms.SymbolTable

open Text

/-- The part of a line before its first `//`. -/
def beforeComment : List Char → List Char
  | '/' :: '/' :: _ => []
  | c :: cs => c :: beforeComment cs
  | [] => []

/-- A line without its comment and the white space around what is left. -/
def stripLine (line : List Char) : List Char := trimEnd (beforeComment (trim line))

/-- The lines that hold more than a comment, stripped and joined by blanks. -/
def strip (text : String) : String :=
  let kept := ((splitAll '\n' text.toList).map stripLine).filter (· ≠ [])
  String.ofList (kept.intersperse [' ']).flatten

/-- The constant that an expression stands for. -/
def constant : Sexp → Except ReadError Constant
  | .atom text => Constant.ofAtom text
  | .list es => .error (.badConstant (Sexp.list es).render)

/-- Reads a symbol table. -/
def read (text : String) : Except ReadError (List Constant) := do
  (← Sexp.read (strip text)).mapM constant

/-- Why a file is not a symbol table. -/
inductive FileError where
  /-- The file is missing or is not UTF-8. -/
  | unavailable
  /-- The text of the file cannot be read. -/
  | malformed (cause : ReadError)

/-- The error in words; nothing is said of a file without text. -/
def FileError.message? : FileError → Option String
  | .unavailable => none
  | .malformed cause => some ("could not read constants: " ++ cause.message)

/-- Reads a symbol table from the bytes of a file, `none` if there is no such file. -/
def readBytes (bytes : Option ByteArray) : Except FileError (List Constant) :=
  match bytes.bind String.fromUTF8? with
  | none => .error .unavailable
  | some text => (read text).mapError .malformed

end LogicalForms.SymbolTable
