import LogicalForms.Term.Reader
import LogicalForms.Ty.Printer
import Mathlib.Tactic.SplitIfs

/-!
# Tags and constants read back as they were written

A text that is read as a type tag is the tag of the type (`Ty.tag_of_ofTag?`), and a text that is
read as a constant is the text of the constant (`Constant.render_of_ofAtom`).  So neither has two
written forms, and printing what was read gives a text that is read in the same way.
-/

namespace LogicalForms

open Text

namespace Ty

theorem eq_of_readName? {s rest : List Char} {name : String}
    (h : readName? s = some (name, rest)) : s = name.toList ++ rest := by
  unfold readName? at h
  split at h
  · cases h
  · simp only [Option.some.injEq, Prod.mk.injEq] at h
    obtain ⟨rfl, rfl⟩ := h
    rw [String.toList_ofList]
    exact List.takeWhile_append_dropWhile.symm

theorem eq_of_readAtDepth? {depth : Nat} {s rest : List Char} {ty : Ty}
    (h : readAtDepth? depth s = some (ty, rest)) : s = ty.tag.toList ++ rest := by
  fun_induction readAtDepth? depth s generalizing ty rest with
  | case1 => cases h
  | case2 depth s arg s₁ harg res s₂ hres iharg ihres =>
    simp only [Option.some.injEq, Prod.mk.injEq] at h
    obtain ⟨rfl, rfl⟩ := h
    rw [iharg harg, ihres hres]
    simp
  | case3 => cases h
  | case4 => cases h
  | case5 depth s hs =>
    simp only [Option.map_eq_some_iff, Prod.mk.injEq] at h
    obtain ⟨⟨name, rest'⟩, hname, rfl, rfl⟩ := h
    rw [eq_of_readName? hname, tag_atom]

theorem tag_of_ofTag? {s : List Char} {ty : Ty} (h : ofTag? s = some ty) : ty.tag.toList = s := by
  unfold ofTag? at h
  split at h
  · next hread =>
    cases h
    rw [eq_of_readAtDepth? hread, List.append_nil]
  · cases h

theorem read_eq_ok_iff {s : List Char} {ty : Ty} : Ty.read s = .ok ty ↔ ofTag? s = some ty := by
  unfold Ty.read
  split
  · next ty' h => simp [h]
  · next h => simp [h]

end Ty

namespace Constant

theorem ofAtom_eq_ok_iff {atom : String} {c : Constant} :
    ofAtom atom = .ok c ↔ ∃ ch name tag, splitAtLast ':' atom.toList = some (ch :: name, tag) ∧
      ch ≠ '$' ∧ Ty.ofTag? tag = some c.ty ∧ c.name = String.ofList (ch :: name) := by
  unfold ofAtom
  split
  · next ch name tag hsplit =>
    split_ifs with hch
    · simp [hsplit, hch]
    · cases htag : Ty.ofTag? tag with
      | none => simp [Ty.read, htag, Except.map, hsplit]
      | some ty =>
        simp only [Ty.read_eq_ok_iff.2 htag, Except.map, Except.ok.injEq]
        constructor
        · rintro rfl
          exact ⟨ch, name, tag, hsplit, hch, htag, rfl⟩
        · rintro ⟨ch', name', tag', hsplit', -, htag', hname'⟩
          rw [hsplit] at hsplit'
          cases hsplit'
          rw [htag] at htag'
          cases c
          simp_all
  · next hsplit =>
    simp only [reduceCtorEq, false_iff]
    rintro ⟨ch, name, tag, h, -⟩
    exact hsplit ch name tag h

theorem render_of_ofAtom {atom : String} {c : Constant} (h : ofAtom atom = .ok c) :
    c.render = atom := by
  obtain ⟨ch, name, tag, hsplit, -, htag, hname⟩ := ofAtom_eq_ok_iff.1 h
  obtain ⟨hatom, -⟩ := splitAtLast_eq_some hsplit
  rw [← String.toList_inj, hatom, render, hname]
  simp [Ty.tag_of_ofTag? htag]

end Constant

end LogicalForms
