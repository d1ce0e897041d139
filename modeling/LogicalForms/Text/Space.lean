/-!
# White space

Two classes of characters matter to the readers of this library:

* `Text.isSpace` — every character with the Unicode property `White_Space`.  Such a character
  ends an atom, and it is what trimming removes;
* `Text.isBlank` — the four characters that may stand between expressions.

Every blank is a space (`isSpace_of_isBlank`), but not the other way round: a no-break space ends
an atom and yet separates nothing.
-/

namespace LogicalForms.Text

/-- The characters with the Unicode property `White_Space`. -/
def isSpace (c : Char) : Bool :=
  let n := c.toNat
  (0x09 ≤ n && n ≤ 0x0D) || n == 0x20 || n == 0x85 || n == 0xA0 || n == 0x1680 ||
    (0x2000 ≤ n && n ≤ 0x200A) || n == 0x2028 || n == 0x2029 || n == 0x202F || n == 0x205F ||
    n == 0x3000

/-- The characters that separate expressions: space, tab, carriage return and newline. -/
def isBlank (c : Char) : Bool :=
  c == ' ' || c == '\t' || c == '\r' || c == '\n'

theorem isSpace_of_isBlank {c : Char} (h : isBlank c = true) : isSpace c = true := by
  simp only [isBlank, Bool.or_eq_true, beq_iff_eq] at h
  rcases h with ((rfl | rfl) | rfl) | rfl <;> decide

/-! ### Trimming -/

/-- The text without its leading white space. -/
def trimStart (s : List Char) : List Char := s.dropWhile isSpace

/-- The text without its trailing white space. -/
def trimEnd (s : List Char) : List Char := (s.reverse.dropWhile isSpace).reverse

/-- The text without the white space around it. -/
def trim (s : List Char) : List Char := trimEnd (trimStart s)

theorem trimStart_append_of_spaces {space : List Char} (h : ∀ c ∈ space, isSpace c = true)
    (s : List Char) : trimStart (space ++ s) = trimStart s :=
  List.dropWhile_append_of_pos h

theorem trimEnd_append_of_spaces (s : List Char) {space : List Char}
    (h : ∀ c ∈ space, isSpace c = true) : trimEnd (s ++ space) = trimEnd s := by
  have hrev : ∀ c ∈ space.reverse, isSpace c = true := fun c hc => h c (List.mem_reverse.1 hc)
  rw [trimEnd, trimEnd, List.reverse_append, List.dropWhile_append_of_pos hrev]

theorem exists_trimEnd_append (s : List Char) :
    ∃ space, (∀ c ∈ space, isSpace c = true) ∧ s = trimEnd s ++ space := by
  refine ⟨(s.reverse.takeWhile isSpace).reverse, fun c hc => ?_, ?_⟩
  · exact List.all_eq_true.1 List.all_takeWhile c (List.mem_reverse.1 hc)
  · rw [trimEnd, ← List.reverse_append, List.takeWhile_append_dropWhile, List.reverse_reverse]

theorem trimStart_eq_self {s : List Char} (h : ∀ c ∈ s, isSpace c = false) : trimStart s = s := by
  cases s with
  | nil => rfl
  | cons c cs => rw [trimStart, List.dropWhile_cons_of_neg (by simp [h c])]

theorem trimEnd_eq_self {s : List Char} (h : ∀ c ∈ s, isSpace c = false) : trimEnd s = s := by
  have hrev : s.reverse.dropWhile isSpace = s.reverse :=
    trimStart_eq_self fun c hc => h c (List.mem_reverse.1 hc)
  rw [trimEnd, hrev, List.reverse_reverse]

end LogicalForms.Text
