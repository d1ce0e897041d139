/-!
# Pointing at a place in a text

`Text.pointAt` shows a text with a caret under the byte offset at which reading stopped.  A text of
one line is shown whole; of a longer text only the line in question is shown, with its number.
-/

namespace LogicalForms.Text

/-- The longest initial part of the text that takes at most `n` bytes in UTF-8, and the rest. -/
def splitAtByte : Nat → List Char → List Char × List Char
  | _, [] => ([], [])
  | n, c :: cs =>
    if c.utf8Size ≤ n then
      let (before, after) := splitAtByte (n - c.utf8Size) cs
      (c :: before, after)
    else
      ([], c :: cs)

/-- The number of bytes of the text in UTF-8. -/
def byteLength : List Char → Nat
  | [] => 0
  | c :: cs => c.utf8Size + byteLength cs

theorem byteLength_append (s t : List Char) :
    byteLength (s ++ t) = byteLength s + byteLength t := by
  induction s with
  | nil => simp [byteLength]
  | cons c cs ih => rw [List.cons_append, byteLength, byteLength, ih, Nat.add_assoc]

/-- The part of the text behind its last newline. -/
def lastLine (s : List Char) : List Char := (s.reverse.takeWhile (· != '\n')).reverse

/-- `n` spaces. -/
def spaces (n : Nat) : String := "".pushn ' ' n

/-- The column of a place, counted from zero: the number of characters before it on its line.
Before a character of several bytes it is the number of bytes instead. -/
def columnOf (lineBefore after : List Char) : Nat :=
  match after with
  | c :: _ => if c.utf8Size = 1 then lineBefore.length else byteLength lineBefore
  | [] => lineBefore.length

/-- The text with a caret under byte `offset`. -/
def pointAt (text : String) (offset : Nat) : String :=
  let chars := text.toList
  if chars.contains '\n' then
    let (before, after) := splitAtByte offset chars
    let lineBefore := lastLine before
    let line := toString (before.count '\n' + 1)
    let content := String.ofList (lineBefore ++ after.takeWhile (· != '\n'))
    let column := columnOf lineBefore after
    let gutter := spaces line.length
    s!"parse error at line {line}, column {column + 1}\n" ++ gutter ++ " |\n" ++
      line ++ " | " ++ content ++ "\n" ++ gutter ++ " | " ++ spaces column ++ "^\n"
  else
    text ++ "\n" ++ spaces offset ++ "^\n"

end LogicalForms.Text
