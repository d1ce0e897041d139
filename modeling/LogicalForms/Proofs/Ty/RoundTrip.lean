import LogicalForms.Proofs.Ty.Grammar
import Mathlib.Data.Set.Function

/-!
# Tags stand for types one to one

Every type that is built from names and function types is read back from its tag, and every text
that is read as a type tag is the tag of such a type (`Ty.read_eq_ok_iff_tag`).  So there is one tag
for each of these types and one type for each tag (`Ty.bijOn_tag`).

The same holds of constants: an atom is read as a constant exactly if it is the text of one
(`Constant.ofAtom_eq_ok_iff_render`), inside of a term as well as by itself
(`ScopedReader.run_term_atom_eq_const_iff`).
-/

namespace LogicalForms

open Text

namespace Ty

variable {ty : Ty} {s : List Char}

/-- **Reading undoes writing, and writing undoes reading.** -/
theorem read_eq_ok_iff_tag : Ty.read s = .ok ty ↔ Readable ty ∧ ty.tag.toList = s :=
  read_eq_ok_iff.trans ofTag?_eq_some_iff

theorem Readable.read_tag (h : Readable ty) : Ty.read ty.tag.toList = .ok ty :=
  read_eq_ok_iff_tag.2 ⟨h, rfl⟩

theorem injOn_tag : Set.InjOn tag {ty | Readable ty} := by
  intro arg harg res hres heq
  have hread := Readable.read_tag harg
  rw [heq, Readable.read_tag hres] at hread
  exact (Except.ok.inj hread).symm

/-- **Each text that is a type tag is the tag of one type.** -/
theorem bijOn_tag : Set.BijOn tag {ty | Readable ty} {s | IsTag s.toList} := by
  refine ⟨fun ty hty => Readable.isTag hty, injOn_tag, fun s hs => ?_⟩
  obtain ⟨ty, hty, htag⟩ := IsTag.exists_readable hs
  exact ⟨ty, hty, String.toList_inj.1 htag⟩

end Ty

namespace Constant

variable {atom : String} {c : Constant}

/-- **The atoms that are read as constants** are the texts of the constants with a readable type,
whose name is not empty and does not start like a variable. -/
theorem ofAtom_eq_ok_iff_render :
    ofAtom atom = .ok c ↔
      c.render = atom ∧ c.ty.Readable ∧ ∃ ch ∈ c.name.toList.head?, ch ≠ '$' := by
  constructor
  · intro h
    obtain ⟨ch, name, tag, -, hch, htag, hname⟩ := ofAtom_eq_ok_iff.1 h
    exact ⟨render_of_ofAtom h, (Ty.ofTag?_eq_some_iff.1 htag).1, ch, by simp [hname], hch⟩
  · rintro ⟨rfl, hty, ch, hhead, hch⟩
    obtain ⟨name, hname⟩ : ∃ name, c.name.toList = ch :: name := by
      cases hchars : c.name.toList with
      | nil => simp [hchars] at hhead
      | cons d name => exact ⟨name, by simp_all⟩
    -- no colon stands in the type, so the last one of the text is behind the name
    have hsplit : splitAtLast ':' c.render.toList = some (ch :: name, c.ty.tag.toList) := by
      have htext : c.render.toList = (ch :: name) ++ ':' :: c.ty.tag.toList := by
        simp [render, hname]
      rw [htext]
      exact splitAtLast_append _ hty.isTag.colon_notMem
    refine ofAtom_eq_ok_iff.2 ⟨ch, name, _, hsplit, hch, Ty.ofTag?_eq_some_iff.2 ⟨hty, rfl⟩, ?_⟩
    rw [← hname, String.ofList_toList]

end Constant

namespace ScopedReader

variable {atom : String} {c : Constant} {σ σ' : Scope}

/-- An atom of a term is read as a constant exactly if it is one by itself. -/
theorem run_term_atom_eq_const_iff :
    (term (.atom atom)).run σ = .ok (.const c, σ') ↔ Constant.ofAtom atom = .ok c ∧ σ = σ' := by
  rw [term]
  split
  · next hdollar =>
    have hnot : ¬Constant.ofAtom atom = .ok c := by
      intro h
      obtain ⟨ch, name, tag, hsplit, hch, -, -⟩ := Constant.ofAtom_eq_ok_iff.1 h
      rw [(splitAtLast_eq_some hsplit).1] at hdollar
      simp [hch] at hdollar
    rw [StateT.run_bind]
    cases (reference atom).run σ with
    | error e =>
      change Except.error e = Except.ok (Term.const c, σ') ↔ _
      simp [hnot]
    | ok p =>
      obtain ⟨v, σ₁⟩ := p
      change Except.ok (Term.var v, σ₁) = Except.ok (Term.const c, σ') ↔ _
      simp [hnot]
  · cases Constant.ofAtom atom with
    | error e =>
      change Except.error e = Except.ok (Term.const c, σ') ↔ _
      simp
    | ok d =>
      change Except.ok (Term.const d, σ) = Except.ok (Term.const c, σ') ↔ _
      simp

end ScopedReader

namespace Ty

/-- **Type tags and types are in bijection.**  A text is read as a type exactly if the type is built
from names and function types and the text is its tag; so tags and such types correspond one to one.
An atom is read as a constant, by itself or in a term, exactly if it is the text of the constant, the
type of the constant is such a type, and its name is not empty and does not start like a variable.
In particular a constant that was read prints as the atom that it was read from. -/
theorem tag_read_bijection :
    (∀ s ty, Ty.read s = .ok ty ↔ Readable ty ∧ ty.tag.toList = s) ∧
      Set.BijOn tag {ty | Readable ty} {s | ∃ ty, Ty.read s.toList = .ok ty} ∧
      (∀ atom c, Constant.ofAtom atom = .ok c ↔
        c.render = atom ∧ Readable c.ty ∧ ∃ ch ∈ c.name.toList.head?, ch ≠ '$') ∧
      ∀ atom c σ σ', (ScopedReader.term (.atom atom)).run σ = .ok (.const c, σ') ↔
        Constant.ofAtom atom = .ok c ∧ σ = σ' := by
  refine ⟨fun s ty => read_eq_ok_iff_tag, ?_, fun atom c => Constant.ofAtom_eq_ok_iff_render,
    fun atom c σ σ' => ScopedReader.run_term_atom_eq_const_iff⟩
  have htags : {s : String | ∃ ty, Ty.read s.toList = .ok ty} = {s | IsTag s.toList} := by
    ext s
    rw [Set.mem_ofPred_eq, Set.mem_ofPred_eq, isTag_iff]
    exact exists_congr fun ty => read_eq_ok_iff
  rw [htags]
  exact bijOn_tag

end Ty

end LogicalForms
