import LogicalForms.Proofs.Sexp.Spelling
import LogicalForms.Proofs.Term.Reading
import LogicalForms.Proofs.Ty.Grammar
import Mathlib.Data.List.Induction

/-!
# The grammar of logical forms

A logical form is written as a constant `name:type`, a reference `$name` or `$name:type`, a lambda
`(lambda $name:type body)`, or a list of at least two logical forms (`Sexp.IsTerm`).  Besides, every
reference without a type has to lie in the body of a lambda that binds its name, or to come after
a reference outside of such lambdas that has a type (`WellScoped`).  A text like that is
`Documented`.

A weaker demand on the references is `Resolved`, which does not look at the type in a reference to
a variable that is known already.  A text that meets this one is `Admitted`; it is documented as
soon as its references have well-formed types (`documented_iff`).
-/

namespace LogicalForms

open Text Sexp TermReader

/-! ### The grammar -/

/-- The expressions that are logical forms, apart from scoping; `admits` says what may stand for
the type in a reference. -/
inductive Sexp.IsTerm (admits : List Char → Prop) : Sexp → Prop
  | const {name tag : List Char} (hne : name ≠ []) (hdollar : name.head? ≠ some '$')
      (htag : Ty.IsTag tag) : IsTerm admits (.atom (String.ofList (name ++ ':' :: tag)))
  | ref {name : List Char} (hname : ':' ∉ name) :
      IsTerm admits (.atom (String.ofList ('$' :: name)))
  | typedRef {name tag : List Char} (hname : ':' ∉ name) (htag : admits tag) :
      IsTerm admits (.atom (String.ofList ('$' :: name ++ ':' :: tag)))
  | lam {name tag : List Char} {body : Sexp} (hname : ':' ∉ name) (htag : Ty.IsTag tag)
      (hbody : IsTerm admits body) : IsTerm admits
        (.list [.atom "lambda", .atom (String.ofList ('$' :: name ++ ':' :: tag)), body])
  | lit {p : Sexp} {es : List Sexp} (hes : es ≠ []) (hp : IsTerm admits p)
      (hall : ∀ e ∈ es, IsTerm admits e) : IsTerm admits (.list (p :: es))

/-- A reference to a variable. -/
structure Reference where
  /-- The name of the variable. -/
  name : String
  /-- What stands for its type, if anything does. -/
  tag : Option (List Char)
  /-- The reference lies in the body of a lambda that binds the name. -/
  bound : Bool

/-- The reference that an atom is where these names are bound. -/
def Reference.ofAtom (binders : List String) (atom : String) : Reference where
  name := (referenceParts atom).1
  tag := (referenceParts atom).2
  bound := (referenceParts atom).1 ∈ binders

namespace Sexp

mutual

/-- The references of an expression in reading order, where these names are bound. -/
def references (binders : List String) : Sexp → List Reference
  | .atom text => if text.toList.head? = some '$' then [.ofAtom binders text] else []
  | .list [.atom "lambda", .atom decl, body] => references ((referenceParts decl).1 :: binders) body
  | .list es => allReferences binders es

/-- The references of expressions in reading order. -/
def allReferences (binders : List String) : List Sexp → List Reference
  | [] => []
  | e :: es => references binders e ++ allReferences binders es

end

end Sexp

/-- The names that are referred to outside of lambdas that bind them. -/
def freeNames (rs : List Reference) : List String :=
  (rs.filter fun r => !r.bound).map Reference.name

/-- Every reference without a type is bound, or comes after a free one of the same name that has
a type. -/
def WellScoped (rs : List Reference) : Prop :=
  ∀ before r after, rs = before ++ r :: after → r.tag = none →
    r.bound = true ∨ ∃ r' ∈ before, r'.name = r.name ∧ r'.bound = false ∧ r'.tag ≠ none

/-- Every reference is bound, or free and known before, or gives its type. -/
def Resolved (known : List String) (rs : List Reference) : Prop :=
  ∀ before r after, rs = before ++ r :: after →
    r.bound = true ∨ r.name ∈ known ++ freeNames before ∨ ∃ tag, r.tag = some tag ∧ Ty.IsTag tag

/-- The text is one logical form, well scoped and with well-formed types throughout. -/
def Documented (s : String) : Prop :=
  ∃ e, Spells [e] s.toList ∧ e.IsTerm Ty.IsTag ∧ WellScoped (e.references [])

/-- The text is one logical form, but what stands for a type matters only where a free name comes
first. -/
def Admitted (s : String) : Prop :=
  ∃ e, Spells [e] s.toList ∧ e.IsTerm (fun _ => True) ∧ Resolved [] (e.references [])

/-! ### Names and references -/

section References

variable {known : List String} {r : Reference} {rs rs' : List Reference}

theorem freeNames_nil : freeNames [] = [] := rfl

theorem freeNames_append : freeNames (rs ++ rs') = freeNames rs ++ freeNames rs' := by
  simp [freeNames]

theorem mem_freeNames_iff {name : String} :
    name ∈ freeNames rs ↔ ∃ r ∈ rs, r.name = name ∧ r.bound = false := by
  simp only [freeNames, List.mem_map, List.mem_filter, Bool.not_eq_true', and_assoc]
  exact exists_congr fun r => and_congr_right fun _ => and_comm

theorem resolved_nil : Resolved known [] := by
  intro before r after h
  simp at h

theorem resolved_cons :
    Resolved known (r :: rs) ↔
      (r.bound = true ∨ r.name ∈ known ∨ ∃ tag, r.tag = some tag ∧ Ty.IsTag tag) ∧
        Resolved (known ++ freeNames [r]) rs := by
  constructor
  · intro h
    refine ⟨by simpa [freeNames] using h [] r rs rfl, fun before r' after hrs => ?_⟩
    rw [List.append_assoc, ← freeNames_append]
    exact h (r :: before) r' after (by rw [hrs]; rfl)
  · rintro ⟨hr, hrs⟩ before r' after h
    cases before with
    | nil =>
      cases h
      simpa [freeNames] using hr
    | cons r₀ before =>
      cases h
      have := hrs before r' after rfl
      rwa [List.append_assoc, ← freeNames_append] at this

theorem resolved_append :
    Resolved known (rs ++ rs') ↔
      Resolved known rs ∧ Resolved (known ++ freeNames rs) rs' := by
  induction rs generalizing known with
  | nil => simp [resolved_nil, freeNames]
  | cons r rs ih =>
    rw [List.cons_append, resolved_cons, resolved_cons, ih, List.append_assoc, ← freeNames_append,
      and_assoc]
    rfl

theorem Resolved.exists_typed_of_mem (h : Resolved [] (rs ++ rs')) {name : String}
    (hname : name ∈ freeNames rs) : ∃ r ∈ rs, r.name = name ∧ r.bound = false ∧ r.tag ≠ none := by
  induction rs using List.reverseRecOn generalizing rs' with
  | nil => cases hname
  | append_singleton rs r ih =>
    have hbefore : name ∈ freeNames rs →
        ∃ r' ∈ rs ++ [r], r'.name = name ∧ r'.bound = false ∧ r'.tag ≠ none := by
      intro hname
      obtain ⟨r', hr', hr''⟩ := ih (by rwa [List.append_assoc] at h) hname
      exact ⟨r', List.mem_append_left _ hr', hr''⟩
    rw [freeNames_append, List.mem_append] at hname
    rcases hname with hname | hname
    · exact hbefore hname
    · obtain ⟨r', hr', rfl, hfree⟩ := mem_freeNames_iff.1 hname
      cases List.mem_singleton.1 hr'
      rcases h rs r rs' (List.append_assoc _ _ _) with hbound | hknown | ⟨tag, htag, -⟩
      · rw [hfree] at hbound
        cases hbound
      · exact hbefore hknown
      · exact ⟨r, by simp, rfl, hfree, by simp [htag]⟩

/-- Where every type is well formed, it does not matter whether the first free reference of a name
is asked for its type, or every one without a type for an earlier one with a type. -/
theorem wellScoped_iff_resolved (htags : ∀ r ∈ rs, ∀ tag, r.tag = some tag → Ty.IsTag tag) :
    WellScoped rs ↔ Resolved [] rs := by
  constructor
  · intro h before r after hrs
    cases htag : r.tag with
    | none =>
      rcases h before r after hrs htag with hbound | ⟨r', hr', hname, hfree, -⟩
      · exact .inl hbound
      · exact .inr (.inl (mem_freeNames_iff.2 ⟨r', hr', hname, hfree⟩))
    | some tag => exact .inr (.inr ⟨tag, rfl, htags r (by simp [hrs]) tag htag⟩)
  · intro h before r after hrs htag
    rcases h before r after hrs with hbound | hknown | ⟨tag, htag', -⟩
    · exact .inl hbound
    · exact .inr ((hrs ▸ h).exists_typed_of_mem hknown)
    · rw [htag] at htag'
      cases htag'

end References

/-! ### Atoms and lists of the grammar -/

section Shape

variable {admits : List Char → Prop}

theorem Sexp.isTerm_atom_iff {text : String} :
    IsTerm admits (.atom text) ↔
      (∃ name tag, text.toList = name ++ ':' :: tag ∧ name ≠ [] ∧ name.head? ≠ some '$' ∧
        Ty.IsTag tag) ∨
      (∃ name, text.toList = '$' :: name ∧ ':' ∉ name) ∨
      ∃ name tag, text.toList = '$' :: name ++ ':' :: tag ∧ ':' ∉ name ∧ admits tag := by
  constructor
  · intro h
    cases h with
    | const hne hdollar htag => exact .inl ⟨_, _, String.toList_ofList, hne, hdollar, htag⟩
    | ref hname => exact .inr (.inl ⟨_, String.toList_ofList, hname⟩)
    | typedRef hname htag => exact .inr (.inr ⟨_, _, String.toList_ofList, hname, htag⟩)
  · rw [← String.ofList_toList (s := text), String.toList_ofList]
    rintro (⟨name, tag, htext, hne, hdollar, htag⟩ | ⟨name, htext, hname⟩ |
      ⟨name, tag, htext, hname, htag⟩)
    · exact htext ▸ .const hne hdollar htag
    · exact htext ▸ .ref hname
    · exact htext ▸ .typedRef hname htag

theorem Sexp.not_isTerm_lambda : ¬IsTerm admits (.atom "lambda") := by
  have hcolon : ':' ∉ "lambda".toList := by decide
  have hdollar : "lambda".toList.head? ≠ some '$' := by decide
  rw [isTerm_atom_iff]
  rintro (⟨name, tag, htext, -⟩ | ⟨name, htext, -⟩ | ⟨name, tag, htext, -⟩)
  · exact hcolon (by rw [htext]; simp)
  · exact hdollar (by rw [htext]; rfl)
  · exact hdollar (by rw [htext]; rfl)

theorem Sexp.IsTerm.ne_lambda {e : Sexp} (h : IsTerm admits e) : e ≠ .atom "lambda" := by
  rintro rfl
  exact not_isTerm_lambda h

theorem Sexp.isTerm_atom_iff_of_dollar {text : String} (h : text.toList.head? = some '$') :
    IsTerm admits (.atom text) ↔ ∀ tag, (referenceParts text).2 = some tag → admits tag := by
  rw [isTerm_atom_iff]
  unfold referenceParts
  constructor
  · rintro (⟨name, tag, htext, hne, hdollar, -⟩ | ⟨name, htext, hname⟩ |
      ⟨name, tag, htext, hname, htag⟩)
    · obtain ⟨c, cs, rfl⟩ := List.exists_cons_of_ne_nil hne
      rw [htext] at h
      exact absurd h hdollar
    · have hnone : splitAtFirst ':' text.toList = none :=
        splitAtFirst_eq_none.2 (by rw [htext]; simpa using hname)
      simp [hnone]
    · have hsome : splitAtFirst ':' text.toList = some ('$' :: name, tag) := by
        rw [htext]
        exact splitAtFirst_append (by simpa using hname) tag
      simpa [hsome] using htag
  · intro hadmits
    obtain ⟨cs, hcs⟩ := List.head?_eq_some_iff.1 h
    cases hsplit : splitAtFirst ':' text.toList with
    | none =>
      have hcolon := splitAtFirst_eq_none.1 hsplit
      exact .inr (.inl ⟨cs, hcs, fun hmem => hcolon (by simp [hcs, hmem])⟩)
    | some parts =>
      obtain ⟨name, tag⟩ := parts
      obtain ⟨htext, hcolon⟩ := splitAtFirst_eq_some hsplit
      cases name with
      | nil =>
        rw [htext] at hcs
        cases hcs
      | cons c name =>
        obtain rfl : c = '$' := by
          rw [htext] at hcs
          exact (List.cons.inj hcs).1
        exact .inr (.inr ⟨name, tag, htext, fun hmem => hcolon (by simp [hmem]),
          hadmits tag (by simp [hsplit])⟩)

theorem Sexp.isTerm_atom_iff_of_not_dollar {text : String} (h : text.toList.head? ≠ some '$') :
    IsTerm admits (.atom text) ↔ ∃ c, Constant.ofAtom text = .ok c := by
  simp only [isTerm_atom_iff, Constant.ofAtom_eq_ok_iff]
  constructor
  · rintro (⟨name, tag, htext, hne, hdollar, htag⟩ | ⟨name, htext, -⟩ | ⟨name, tag, htext, -⟩)
    · obtain ⟨c, cs, rfl⟩ := List.exists_cons_of_ne_nil hne
      obtain ⟨ty, hty⟩ := Ty.isTag_iff.1 htag
      have hsplit : splitAtLast ':' text.toList = some (c :: cs, tag) := by
        rw [htext]
        exact splitAtLast_append _ htag.colon_notMem
      exact ⟨⟨String.ofList (c :: cs), ty⟩, c, cs, tag, hsplit, by simpa using hdollar, hty, rfl⟩
    · exact absurd (by rw [htext]; rfl) h
    · exact absurd (by rw [htext]; rfl) h
  · rintro ⟨⟨name, ty⟩, c, cs, tag, hsplit, hc, hty, -⟩
    exact .inl ⟨c :: cs, tag, (splitAtLast_eq_some hsplit).1, by simp, by simpa using hc,
      Ty.isTag_iff.2 ⟨ty, hty⟩⟩

theorem Sexp.isTerm_lambda_iff {decl : String} {body : Sexp} :
    IsTerm admits (.list [.atom "lambda", .atom decl, body]) ↔
      ∃ name tag, declaration? decl = some (name, tag) ∧ Ty.IsTag tag ∧ IsTerm admits body := by
  simp only [declaration?_eq_some_iff]
  constructor
  · intro h
    cases h with
    | @lam name tag _ hname htag hbody =>
      refine ⟨_, tag, ⟨name, ?_, rfl⟩, htag, hbody⟩
      rw [String.toList_ofList]
      exact splitAtFirst_append (by simpa using hname) tag
    | lit _ hp => exact absurd hp not_isTerm_lambda
  · rintro ⟨_, tag, ⟨name, hsplit, -⟩, htag, hbody⟩
    obtain ⟨htext, hcolon⟩ := splitAtFirst_eq_some hsplit
    rw [← String.ofList_toList (s := decl), htext]
    exact .lam (fun hmem => hcolon (by simp [hmem])) htag hbody

theorem Sexp.isTerm_list_iff {p : Sexp} {es : List Sexp} (hp : p ≠ .atom "lambda") :
    IsTerm admits (.list (p :: es)) ↔
      es ≠ [] ∧ IsTerm admits p ∧ ∀ e ∈ es, IsTerm admits e := by
  constructor
  · intro h
    cases h with
    | lam => exact absurd rfl hp
    | lit hes hp hall => exact ⟨hes, hp, hall⟩
  · rintro ⟨hes, hp, hall⟩
    exact .lit hes hp hall

end Shape

theorem Sexp.references_list {binders : List String} {p : Sexp} {es : List Sexp}
    (hp : p ≠ .atom "lambda") :
    (Sexp.list (p :: es)).references binders =
      p.references binders ++ allReferences binders es := by
  rw [references.eq_3 _ _ fun decl body h => hp (List.cons.inj h).1, allReferences]

/-! ### Types in references -/

namespace Sexp

variable {admits : List Char → Prop} {e : Sexp} {binders : List String} {r : Reference}
  {tag : List Char}

theorem mem_allReferences_iff {es : List Sexp} :
    r ∈ allReferences binders es ↔ ∃ e ∈ es, r ∈ e.references binders := by
  induction es with
  | nil => simp [allReferences]
  | cons e es ih => simp [allReferences, ih]

theorem references_atom_of_not_dollar {text : String} (h : text.toList.head? ≠ some '$') :
    (Sexp.atom text).references binders = [] := by
  rw [references, if_neg h]

/-- An atom of the grammar that starts with `$` is a reference, whose type is admitted. -/
theorem IsTerm.admits_of_dollar {text : String} (h : (Sexp.atom text).IsTerm admits)
    (hdollar : text.toList.head? = some '$') (hr : r ∈ (Sexp.atom text).references binders)
    (htag : r.tag = some tag) : admits tag := by
  rw [references, if_pos hdollar, List.mem_singleton] at hr
  subst hr
  exact (isTerm_atom_iff_of_dollar hdollar).1 h tag htag

theorem IsTerm.admits_of_mem (h : e.IsTerm admits) (hr : r ∈ e.references binders)
    (htag : r.tag = some tag) : admits tag := by
  induction h generalizing binders with
  | @const name tag' hne hdollar htag' =>
    obtain ⟨c, cs, rfl⟩ := List.exists_cons_of_ne_nil hne
    rw [references_atom_of_not_dollar (by simpa using hdollar)] at hr
    cases hr
  | ref hname => exact (IsTerm.ref hname).admits_of_dollar (by simp) hr htag
  | typedRef hname htag' => exact (IsTerm.typedRef hname htag').admits_of_dollar (by simp) hr htag
  | lam _ _ _ ih =>
    rw [references] at hr
    exact ih hr
  | lit _ hp _ ihp ihall =>
    rw [references_list hp.ne_lambda, List.mem_append, mem_allReferences_iff] at hr
    rcases hr with hr | ⟨e, he, hr⟩
    · exact ihp hr
    · exact ihall e he hr

/-- What may stand for the type in a reference matters only for the references that there are. -/
theorem IsTerm.of_forall {admits' : List Char → Prop} (h : e.IsTerm admits')
    (hall : ∀ r ∈ e.references binders, ∀ tag, r.tag = some tag → admits tag) :
    e.IsTerm admits := by
  induction h generalizing binders with
  | const hne hdollar htag => exact .const hne hdollar htag
  | ref hname => exact .ref hname
  | @typedRef name tag hname _ =>
    have hdollar : (String.ofList ('$' :: name ++ ':' :: tag)).toList.head? = some '$' := by simp
    refine (isTerm_atom_iff_of_dollar hdollar).2 fun tag' htag' =>
      hall (.ofAtom binders _) ?_ tag' htag'
    rw [references, if_pos hdollar, List.mem_singleton]
  | lam hname htag _ ih =>
    rw [references] at hall
    exact .lam hname htag (ih hall)
  | lit hes hp _ ihp ihall =>
    rw [references_list hp.ne_lambda] at hall
    refine .lit hes (ihp fun r hr => hall r (List.mem_append_left _ hr)) fun e he => ?_
    exact ihall e he fun r hr =>
      hall r (List.mem_append_right _ (mem_allReferences_iff.2 ⟨e, he, hr⟩))

end Sexp

/-! ### Texts -/

theorem Sexp.eq_of_spells {e e' : Sexp} {s : List Char} (h : Spells [e] s) (h' : Spells [e'] s) :
    e = e' := by
  have heq := (readAll_of_spells h).symm.trans (readAll_of_spells h')
  simpa using heq

/-- What is documented is what is admitted and has well-formed types in all its references. -/
theorem documented_iff {s : String} :
    Documented s ↔ Admitted s ∧ ∀ e, Spells [e] s.toList →
      ∀ r ∈ e.references [], ∀ tag, r.tag = some tag → Ty.IsTag tag := by
  constructor
  · rintro ⟨e, hspells, hterm, hscoped⟩
    have htags : ∀ r ∈ e.references [], ∀ tag, r.tag = some tag → Ty.IsTag tag :=
      fun r hr tag htag => hterm.admits_of_mem hr htag
    have hterm' : e.IsTerm fun _ => True :=
      hterm.of_forall fun (r : Reference) (_ : r ∈ e.references []) _ _ => trivial
    refine ⟨⟨e, hspells, hterm', (wellScoped_iff_resolved htags).1 hscoped⟩, fun e' hspells' => ?_⟩
    rwa [← Sexp.eq_of_spells hspells hspells']
  · rintro ⟨⟨e, hspells, hterm, hresolved⟩, htags⟩
    have htags := htags e hspells
    exact ⟨e, hspells, hterm.of_forall htags, (wellScoped_iff_resolved htags).2 hresolved⟩

end LogicalForms
