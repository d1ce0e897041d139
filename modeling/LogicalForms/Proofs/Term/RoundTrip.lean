import LogicalForms.Proofs.Term.ReadBack

/-!
# Terms read back as they were written

A term that is legible and hygienic is read back from its text as a renaming of itself
(`Term.readFrom_render`): it has no stale leaf, so it is read back as an alpha-equivalent term, and
the reader gives the variables of this one identities of their own.  Two such terms are written in
the same way exactly if they are alpha-equivalent (`Term.render_eq_iff`).
-/

namespace LogicalForms

namespace Term

variable {t : Term}

/-- **A hygienic and legible term is read back from its text as a renaming of itself.** -/
theorem readFrom_render (h : t.Hygienic) (ht : t.Legible) (next : Nat) :
    ∃ u n, readFrom next t.render = .ok (u, n) ∧ t.RenamesTo u := by
  have hread := readFrom_render_of_legible ht next
  rw [if_pos (h.staleLeaves_eq_nil (by simp))] at hread
  obtain ⟨u, n, hu, halpha⟩ := hread
  exact ⟨u, n, hu, halpha.renamesTo h (distinctIds_of_readFrom hu)⟩

theorem RenamesTo.exists_renaming {u : Term} (h : t.RenamesTo u) :
    ∃ r, IsRenamingOn r t.occurrences ∧ u = t.rename r := by
  obtain ⟨r, hr, hu⟩ := h
  exact ⟨r, hr.mono fun v hv => by simpa [vars] using hv, hu⟩

theorem RenamesTo.render_eq {u : Term} (h : t.RenamesTo u) : u.render = t.render := by
  obtain ⟨r, hr, rfl⟩ := h.exists_renaming
  exact render_rename hr.injOn hr.keepsTy

/-- **Hygienic terms are written in the same way if and only if they are alpha-equivalent.** -/
theorem render_eq_iff {u : Term} (ht : t.Hygienic) (ht' : t.Legible) (hu : u.Hygienic)
    (hu' : u.Legible) : t.render = u.render ↔ t.AlphaEq u := by
  constructor
  · intro h
    obtain ⟨w, n, hw, htw⟩ := readFrom_render ht ht' 0
    obtain ⟨w', n', hw', huw⟩ := readFrom_render hu hu' 0
    -- one text is read as one term
    rw [← h, hw] at hw'
    cases hw'
    obtain ⟨r, hr, hrw⟩ := htw.exists_renaming
    obtain ⟨q, hq, hqw⟩ := huw.exists_renaming
    exact alphaEq_of_rename_eq hr hq (hrw.symm.trans hqw)
  · exact fun h => h.render_eq ht hu

/-! ### Texts -/

/-- **Reading what was printed of a term that was read.**

* Such a term, and what simplification makes of it, is read back from its text as a renaming of
  itself, which is written in the same way.
* Two such terms are written in the same way if and only if they are alpha-equivalent. -/
theorem render_readFrom :
    (∀ (next n : Nat) (s : String) (t : Term), readFrom next s = .ok (t, n) →
      ∀ u ∈ [t, t.simplify false, t.simplify true], ∀ next', ∃ u' n',
        readFrom next' u.render = .ok (u', n') ∧ u.RenamesTo u' ∧ u'.render = u.render) ∧
    ∀ (next₁ next₂ n₁ n₂ : Nat) (s₁ s₂ : String) (t₁ t₂ : Term),
      readFrom next₁ s₁ = .ok (t₁, n₁) → readFrom next₂ s₂ = .ok (t₂, n₂) →
        (t₁.render = t₂.render ↔ t₁.AlphaEq t₂) := by
  constructor
  · intro next n s t h u hu next'
    have hygienic : t.Hygienic := hygienic_of_readFrom h
    have legible : t.Legible := legible_of_readFrom h
    have hboth : u.Hygienic ∧ u.Legible := by
      simp only [List.mem_cons, List.not_mem_nil, or_false] at hu
      rcases hu with rfl | rfl | rfl
      · exact ⟨hygienic, legible⟩
      · exact ⟨hygienic.simplify false, legible.simplify false⟩
      · exact ⟨hygienic.simplify true, legible.simplify true⟩
    obtain ⟨u', n', hread, hrename⟩ := readFrom_render hboth.1 hboth.2 next'
    exact ⟨u', n', hread, hrename, hrename.render_eq⟩
  · intro next₁ next₂ n₁ n₂ s₁ s₂ t₁ t₂ h₁ h₂
    exact render_eq_iff (hygienic_of_readFrom h₁) (legible_of_readFrom h₁)
      (hygienic_of_readFrom h₂) (legible_of_readFrom h₂)

/-- Two binders of one name, and a free name that is met inside of them and outside. -/
def namesakesText : String :=
  "(and:<t,<t,t>> (lambda $x:e (lambda $x:e (p:<e,<e,t>> $x $y:e))) (q:<e,t> $y))"

/-- The term of `namesakesText`. -/
def namesakes : Term :=
  let e : Ty := .atom "e"
  let t : Ty := .atom "t"
  .lit (.const ⟨"and", .arrow t (.arrow t t)⟩)
    [.lam ⟨0, e⟩ (.lam ⟨1, e⟩ (.lit (.const ⟨"p", .arrow e (.arrow e t)⟩)
      [.var ⟨1, e⟩, .var ⟨2, e⟩])),
     .lit (.const ⟨"q", .arrow e t⟩) [.var ⟨2, e⟩]]

theorem readFrom_namesakesText : readFrom 0 namesakesText = .ok (namesakes, 3) := by
  decide +kernel

theorem render_readFrom_namesakes :
    readFrom 0 namesakesText = .ok (namesakes, 3) ∧
    (∃ u' n', readFrom 7 (namesakes.simplify true).render = .ok (u', n') ∧
      (namesakes.simplify true).RenamesTo u' ∧ u'.render = (namesakes.simplify true).render) ∧
    namesakes.AlphaEq (namesakes.rename fun v => ⟨5 + v.id, v.ty⟩) := by
  refine ⟨readFrom_namesakesText, ?_, ?_⟩
  · exact render_readFrom.1 0 3 namesakesText namesakes readFrom_namesakesText _ (by simp) 7
  · -- the same text, read when five identities are taken
    have hshifted : readFrom 5 namesakesText =
        .ok (namesakes.rename fun v => ⟨5 + v.id, v.ty⟩, 8) := by decide +kernel
    exact (render_readFrom.2 0 5 3 8 namesakesText namesakesText _ _ readFrom_namesakesText
      hshifted).1 (by decide +kernel)

end Term

end LogicalForms
