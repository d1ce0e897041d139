import LogicalForms.Proofs.Sexp.Spelling
import LogicalForms.Proofs.Ty.Tag

/-!
# The grammar of type tags

A type tag is a name, or two type tags between `<`, `,` and `>` (`Ty.IsTag`).  These texts are the
tags of the types that are built from such names and function types (`Ty.Readable`), and they are
what the reader accepts (`Ty.isTag_iff`).  All of a type tag can stand in an atom of a nested
expression (`Ty.IsTag.isAtomChar`).
-/

namespace LogicalForms

open Text Sexp

/-! ### The characters of names -/

namespace Text

/-- The code points of white space. -/
def spaceCodes : List Nat :=
  [0x09, 0x0A, 0x0B, 0x0C, 0x0D, 0x20, 0x85, 0xA0, 0x1680, 0x2000, 0x2001, 0x2002, 0x2003, 0x2004,
    0x2005, 0x2006, 0x2007, 0x2008, 0x2009, 0x200A, 0x2028, 0x2029, 0x202F, 0x205F, 0x3000]

theorem toNat_mem_spaceCodes {c : Char} (h : isSpace c = true) : c.toNat ∈ spaceCodes := by
  simp only [isSpace, Bool.or_eq_true, Bool.and_eq_true, decide_eq_true_eq, beq_iff_eq] at h
  simp only [spaceCodes, List.mem_cons, List.not_mem_nil, or_false]
  omega

theorem isAlphanumeric_eq_false_of_isSpace {c : Char} (h : isSpace c = true) :
    isAlphanumeric c = false := by
  have hcodes : ∀ n ∈ spaceCodes, inRanges n alphanumericRanges = false := by decide +kernel
  exact hcodes _ (toNat_mem_spaceCodes h)

end Text

namespace Ty

theorem isAtomChar_of_isNameChar {c : Char} (h : isNameChar c = true) : isAtomChar c = true := by
  refine isAtomChar_iff.2 ⟨eq_false_of_ne_true fun hspace => ?_, ?_, ?_⟩
  · rw [isNameChar, isAlphanumeric_eq_false_of_isSpace hspace, Bool.false_or] at h
    simp only [Bool.or_eq_true, beq_iff_eq] at h
    rcases h with (rfl | rfl) | rfl <;> exact absurd hspace (by decide)
  · rintro rfl
    exact absurd h (by decide)
  · rintro rfl
    exact absurd h (by decide)

/-! ### Type tags -/

/-- The characters are a name of an atomic type: there is one, and all are characters of names. -/
def IsName (name : List Char) : Prop := name ≠ [] ∧ ∀ c ∈ name, isNameChar c = true

/-- The texts that are type tags. -/
inductive IsTag : List Char → Prop
  | atom {name : List Char} (hname : IsName name) : IsTag name
  | arrow {arg res : List Char} (harg : IsTag arg) (hres : IsTag res) :
      IsTag ('<' :: (arg ++ ',' :: (res ++ ['>'])))

/-- The types that are built from names and function types. -/
inductive Readable : Ty → Prop
  | atom {name : String} (hname : IsName name.toList) : Readable (.atom name)
  | arrow {arg res : Ty} (harg : Readable arg) (hres : Readable res) : Readable (.arrow arg res)

theorem Readable.isTag {ty : Ty} (h : Readable ty) : IsTag ty.tag.toList := by
  induction h with
  | atom hname =>
    rw [tag_atom]
    exact .atom hname
  | arrow _ _ harg hres => simpa using IsTag.arrow harg hres

theorem IsTag.exists_readable {s : List Char} (h : IsTag s) :
    ∃ ty, Readable ty ∧ ty.tag.toList = s := by
  induction h with
  | @atom name hname =>
    exact ⟨.atom (String.ofList name), .atom (by simpa using hname), by simp⟩
  | arrow _ _ harg hres =>
    obtain ⟨arg, harg, rfl⟩ := harg
    obtain ⟨res, hres, rfl⟩ := hres
    exact ⟨.arrow arg res, .arrow harg hres, by simp⟩

/-- The characters of a tag are those of names, and the three that make up a function type. -/
theorem IsTag.mem {s : List Char} (h : IsTag s) {c : Char} (hc : c ∈ s) :
    isNameChar c = true ∨ c = '<' ∨ c = ',' ∨ c = '>' := by
  induction h with
  | atom hname => exact .inl (hname.2 c hc)
  | arrow _ _ harg hres =>
    simp only [List.mem_cons, List.mem_append, List.not_mem_nil, or_false] at hc
    rcases hc with rfl | hc | rfl | hc | rfl
    · exact .inr (.inl rfl)
    · exact harg hc
    · exact .inr (.inr (.inl rfl))
    · exact hres hc
    · exact .inr (.inr (.inr rfl))

theorem IsTag.colon_notMem {s : List Char} (h : IsTag s) : ':' ∉ s := by
  intro hc
  have hcolon := h.mem hc
  revert hcolon
  decide

theorem IsTag.slash_notMem {s : List Char} (h : IsTag s) : '/' ∉ s := by
  intro hc
  have hslash := h.mem hc
  revert hslash
  decide

theorem IsTag.isAtomChar {s : List Char} (h : IsTag s) : ∀ c ∈ s, isAtomChar c = true := by
  intro c hc
  rcases h.mem hc with hname | rfl | rfl | rfl
  · exact isAtomChar_of_isNameChar hname
  all_goals decide

theorem IsTag.ne_nil {s : List Char} (h : IsTag s) : s ≠ [] := by
  cases h with
  | atom hname => exact hname.1
  | arrow _ _ => exact List.cons_ne_nil _ _

/-! ### What the reader accepts -/

/-- The text does not go on with a character of a name. -/
def Ended (s : List Char) : Prop := ∀ c ∈ s.head?, isNameChar c = false

theorem readName?_append {name rest : List Char} (hname : IsName name) (hrest : Ended rest) :
    readName? (name ++ rest) = some (String.ofList name, rest) := by
  have htake : (name ++ rest).takeWhile isNameChar = name := by
    rw [List.takeWhile_append_of_pos hname.2]
    cases rest with
    | nil => simp
    | cons c cs => simp [hrest c rfl]
  have hdrop : (name ++ rest).dropWhile isNameChar = rest := by
    rw [List.dropWhile_append_of_pos hname.2]
    cases rest with
    | nil => simp
    | cons c cs => simp [hrest c rfl]
  obtain ⟨c, cs, hcons⟩ := List.exists_cons_of_ne_nil hname.1
  unfold readName?
  rw [htake, hdrop, hcons]

theorem isName_of_readName? {s rest : List Char} {name : String}
    (h : readName? s = some (name, rest)) : IsName name.toList := by
  unfold readName? at h
  split at h
  · cases h
  · next hne =>
    cases h
    rw [String.toList_ofList]
    exact ⟨hne, fun c hc => List.all_eq_true.1 List.all_takeWhile c hc⟩

/-- The tag of a readable type is read to its end, if what follows does not go on with it. -/
theorem Readable.readAtDepth?_tag {ty : Ty} (h : Readable ty) {depth : Nat} {rest : List Char}
    (hdepth : ty.tag.toList.length < depth) (hrest : Ended rest) :
    readAtDepth? depth (ty.tag.toList ++ rest) = some (ty, rest) := by
  induction h generalizing depth rest with
  | @atom name hname =>
    obtain ⟨depth, rfl⟩ : ∃ d, depth = d + 1 := ⟨depth - 1, by omega⟩
    -- no name starts like a function type
    have hne : ∀ s, name.toList ++ rest = '<' :: s → False := by
      intro s hs
      obtain ⟨c, cs, hcons⟩ := List.exists_cons_of_ne_nil hname.1
      have hc : isNameChar c = true := hname.2 c (by simp [hcons])
      rw [hcons, List.cons_append, List.cons.injEq] at hs
      rw [hs.1] at hc
      revert hc
      decide
    rw [tag_atom, readAtDepth?.eq_3 _ _ hne, readName?_append hname hrest]
    simp
  | @arrow arg res _ _ harg hres =>
    obtain ⟨depth, rfl⟩ : ∃ d, depth = d + 1 := ⟨depth - 1, by omega⟩
    have hlength : arg.tag.toList.length < depth ∧ res.tag.toList.length < depth := by
      simp only [tag_arrow, String.toList_append, List.length_append] at hdepth
      have : "<".toList.length = 1 := rfl
      omega
    have htext : (Ty.arrow arg res).tag.toList ++ rest =
        '<' :: (arg.tag.toList ++ ',' :: (res.tag.toList ++ '>' :: rest)) := by simp
    have hcomma : ∀ s, Ended (',' :: s) := fun s c hc => by cases hc; decide
    have hclose : ∀ s, Ended ('>' :: s) := fun s c hc => by cases hc; decide
    rw [htext, readAtDepth?, harg hlength.1 (hcomma _)]
    simp only
    rw [hres hlength.2 (hclose _)]
    rfl

theorem readable_of_readAtDepth? {depth : Nat} {s rest : List Char} {ty : Ty}
    (h : readAtDepth? depth s = some (ty, rest)) : Readable ty := by
  fun_induction readAtDepth? depth s generalizing ty rest with
  | case1 => cases h
  | case2 depth s arg s₁ harg res s₂ hres iharg ihres =>
    cases h
    exact .arrow (iharg harg) (ihres hres)
  | case3 => cases h
  | case4 => cases h
  | case5 depth s hs =>
    simp only [Option.map_eq_some_iff, Prod.mk.injEq] at h
    obtain ⟨⟨name, rest'⟩, hname, rfl, rfl⟩ := h
    exact .atom (isName_of_readName? hname)

/-- **The reader accepts the tags of readable types**, and gives back the type. -/
theorem ofTag?_eq_some_iff {s : List Char} {ty : Ty} :
    ofTag? s = some ty ↔ Readable ty ∧ ty.tag.toList = s := by
  constructor
  · intro h
    refine ⟨?_, tag_of_ofTag? h⟩
    unfold ofTag? at h
    split at h
    · next hread =>
      cases h
      exact readable_of_readAtDepth? hread
    · cases h
  · rintro ⟨hty, rfl⟩
    have hended : Ended [] := by simp [Ended]
    have hread := hty.readAtDepth?_tag (Nat.lt_succ_self _) hended
    rw [List.append_nil] at hread
    unfold ofTag?
    rw [hread]

/-- **The reader accepts what the grammar generates.** -/
theorem isTag_iff {s : List Char} : IsTag s ↔ ∃ ty, ofTag? s = some ty := by
  simp only [ofTag?_eq_some_iff]
  constructor
  · exact IsTag.exists_readable
  · rintro ⟨ty, hty, rfl⟩
    exact hty.isTag

end Ty

end LogicalForms
