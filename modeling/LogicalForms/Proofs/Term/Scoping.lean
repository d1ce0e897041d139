import LogicalForms.Proofs.Term.Acceptance
import LogicalForms.Proofs.Term.UnusedBinders

/-!
# What names stand for

Under lexical scoping a reference is the variable of the innermost lambda around it that binds its
name.  Outside of such lambdas it is free, and its name stands for one variable throughout the text.
`Sexp.Denotes` says what term an expression stands for in this way.

The reader makes this term (`TermReader.scoping`).  Its table of free variables only grows, so what
a name stood for once it stands for in the end (`TermReader.Grows`); and the entry of a name comes
from the first free reference to it (`TermReader.Scoped`).

In a hygienic term every leaf of a bound variable lies in the body of its only lambda
(`Term.Hygienic.body?_of_mem_leaves`).
-/

namespace LogicalForms

open Text Sexp TermReader

/-- The term is what the expression stands for, where `bound` are the names bound around it, the
innermost first, and each other name stands for the variable `free` of it. -/
inductive Sexp.Denotes (free : String → Var) : List (String × Var) → Sexp → Term → Prop
  | const {bound : List (String × Var)} {text : String} {c : Constant}
      (hconst : text.toList.head? ≠ some '$') (hc : Constant.ofAtom text = .ok c) :
      Denotes free bound (.atom text) (.const c)
  | ref {bound : List (String × Var)} {text : String} (hvar : text.toList.head? = some '$') :
      Denotes free bound (.atom text)
        (.var ((bound.lookup (referenceParts text).1).getD (free (referenceParts text).1)))
  | lam {bound : List (String × Var)} {decl name : String} {tag : List Char} {body : Sexp}
      {v : Var} {t : Term} (hdecl : declaration? decl = some (name, tag))
      (htag : Ty.ofTag? tag = some v.ty) (hbody : Denotes free ((name, v) :: bound) body t) :
      Denotes free bound (.list [.atom "lambda", .atom decl, body]) (.lam v t)
  | lit {bound : List (String × Var)} {p : Sexp} {es : List Sexp} {q : Term} {as : List Term}
      (hp : p ≠ .atom "lambda") (hes : es ≠ []) (hpredicate : Denotes free bound p q)
      (hlength : es.length = as.length)
      (hall : ∀ ea ∈ es.zip as, Denotes free bound ea.1 ea.2) :
      Denotes free bound (.list (p :: es)) (.lit q as)

/-- The first free reference to the name is `$name:tag`, where `tag` is the tag of the type. -/
def FirstTyped (rs : List Reference) (name : String) (ty : Ty) : Prop :=
  ∃ before r after tag, rs = before ++ r :: after ∧ r.name = name ∧ r.bound = false ∧
    name ∉ freeNames before ∧ r.tag = some tag ∧ Ty.ofTag? tag = some ty

namespace TermReader

/-! ### The table of free variables -/

/-- The table keeps its entries. -/
def Grows (σ σ' : Supply) : Prop :=
  ∀ name v, σ.free.lookup name = some v → σ'.free.lookup name = some v

/-- The table has what `free` says. -/
def Fits (free : String → Var) (σ : Supply) : Prop :=
  ∀ name v, σ.free.lookup name = some v → free name = v

theorem Fits.of_grows {free : String → Var} {σ σ' : Supply} (h : Fits free σ') (hσ : Grows σ σ') :
    Fits free σ := fun name v hv => h name v (hσ name v hv)

/-- What reading expressions with the references `rs` does to the table of free variables. -/
structure Tabulates (σ σ' : Supply) (rs : List Reference) : Prop where
  grows : Grows σ σ'
  known : ∀ name ∈ freeNames rs, ∃ v, σ'.free.lookup name = some v
  origin : ∀ name v, σ'.free.lookup name = some v →
    σ.free.lookup name = some v ∨ FirstTyped rs name v.ty

namespace Tabulates

variable {σ σ₁ σ' : Supply} {rs rs' : List Reference}

theorem nil (σ : Supply) : Tabulates σ σ [] where
  grows _ _ h := h
  known := by simp [freeNames_nil]
  origin _ _ h := .inl h

theorem append (h : Tabulates σ σ₁ rs) (h' : Tabulates σ₁ σ' rs') :
    Tabulates σ σ' (rs ++ rs') := by
  constructor
  case grows => exact fun name v hv => h'.grows name v (h.grows name v hv)
  case known =>
    intro name hname
    rw [freeNames_append, List.mem_append] at hname
    rcases hname with hname | hname
    · obtain ⟨v, hv⟩ := h.known name hname
      exact ⟨v, h'.grows name v hv⟩
    · exact h'.known name hname
  case origin =>
    intro name v hv
    cases hmid : σ₁.free.lookup name with
    | some w =>
      -- the entry is there after the first part already
      obtain rfl : w = v := Option.some.inj ((h'.grows name w hmid).symm.trans hv)
      refine (h.origin name w hmid).imp_right ?_
      rintro ⟨before, r, after, tag, rfl, hr⟩
      exact ⟨before, r, after ++ rs', tag, by simp, hr⟩
    | none =>
      obtain ⟨before, r, after, tag, rfl, hname, hfree, hnew, htag⟩ :=
        (h'.origin name v hv).resolve_left (by simp [hmid])
      refine .inr ⟨rs ++ before, r, after, tag, by simp, hname, hfree, ?_, htag⟩
      rw [freeNames_append, List.mem_append, not_or]
      refine ⟨fun hmem => ?_, hnew⟩
      obtain ⟨w, hw⟩ := h.known name hmem
      simp [hmid] at hw

theorem of_bound (σ : Supply) {r : Reference} (h : r.bound = true) : Tabulates σ σ [r] where
  grows _ _ h := h
  known := by simp [mem_freeNames_iff, h]
  origin _ _ h := .inl h

theorem of_known {r : Reference} {v : Var} (h : σ.free.lookup r.name = some v) :
    Tabulates σ σ [r] where
  grows _ _ h := h
  known name hname := by
    obtain ⟨r', hr', rfl, -⟩ := mem_freeNames_iff.1 hname
    cases List.mem_singleton.1 hr'
    exact ⟨v, h⟩
  origin _ _ h := .inl h

theorem of_new {r : Reference} {tag : List Char} {ty : Ty} (hfree : r.bound = false)
    (hnew : σ.free.lookup r.name = none) (htag : r.tag = some tag) (hty : Ty.ofTag? tag = some ty) :
    Tabulates σ (introduce σ r.name ty).2 [r] := by
  have hlookup : ∀ name, (introduce σ r.name ty).2.free.lookup name =
      if name = r.name then some ⟨σ.next, ty⟩ else σ.free.lookup name := by
    intro name
    rw [introduce, List.lookup_cons]
    by_cases h : name = r.name
    · simp [h]
    · rw [beq_false_of_ne h, if_neg h]
  constructor
  case grows =>
    intro name v hv
    have hne : name ≠ r.name := by
      rintro rfl
      simp [hnew] at hv
    rw [hlookup, if_neg hne, hv]
  case known =>
    intro name hname
    obtain ⟨r', hr', rfl, -⟩ := mem_freeNames_iff.1 hname
    cases List.mem_singleton.1 hr'
    exact ⟨⟨σ.next, ty⟩, by rw [hlookup, if_pos rfl]⟩
  case origin =>
    intro name v hv
    rw [hlookup] at hv
    split_ifs at hv with hname
    · cases hv
      exact .inr ⟨[], r, [], tag, rfl, hname.symm, hfree, by simp [freeNames_nil], htag, hty⟩
    · exact .inl hv

end Tabulates

/-- What a reference does to the table, and which variable it is. -/
theorem tabulates_of_run_reference {bound : List (String × Var)} {atom : String} {v : Var}
    {σ σ' : Supply} (h : (reference bound atom).run σ = .ok (v, σ')) :
    Tabulates σ σ' [.ofAtom (bound.map Prod.fst) atom] ∧ ∀ free, Fits free σ' →
      v = (bound.lookup (referenceParts atom).1).getD (free (referenceParts atom).1) := by
  rw [run_reference] at h
  cases hbound : bound.lookup (referenceParts atom).1 with
  | some w =>
    rw [hbound] at h
    cases h
    have hmem := key_mem_of_lookup_eq_some hbound
    exact ⟨.of_bound σ (by simpa [Reference.ofAtom] using hmem), fun free _ => rfl⟩
  | none =>
    have hnotMem := lookup_eq_none_iff_notMem.1 hbound
    rw [hbound] at h
    cases hfree : σ.free.lookup (referenceParts atom).1 with
    | some w =>
      rw [hfree] at h
      cases h
      exact ⟨.of_known hfree, fun free hfits => (hfits _ _ hfree).symm⟩
    | none =>
      rw [hfree] at h
      cases htag : (referenceParts atom).2 with
      | none => simp [htag] at h
      | some tag =>
        rw [htag] at h
        dsimp only at h
        cases hread : Ty.read tag with
        | error err => simp [hread, Except.map] at h
        | ok ty =>
          rw [hread] at h
          cases h
          have htable := Tabulates.of_new (r := .ofAtom (bound.map Prod.fst) atom) (σ := σ)
            (by simpa [Reference.ofAtom] using hnotMem) hfree htag (Ty.read_eq_ok_iff.1 hread)
          refine ⟨htable, fun free hfits => (hfits _ _ ?_).symm⟩
          simp

/-! ### Expressions -/

/-- Reading the expression tabulates its references and makes the term that it denotes. -/
def Scoped (bound : List (String × Var)) (e : Sexp) : Prop :=
  ∀ (t : Term) (σ σ' : Supply), (term bound e).run σ = .ok (t, σ') →
    Tabulates σ σ' (e.references (bound.map Prod.fst)) ∧
      ∀ free, Fits free σ' → e.Denotes free bound t

/-- Reading the expressions tabulates their references and makes the terms that they denote. -/
def AllScoped (bound : List (String × Var)) (es : List Sexp) : Prop :=
  ∀ (ts : List Term) (σ σ' : Supply), (terms bound es).run σ = .ok (ts, σ') →
    Tabulates σ σ' (allReferences (bound.map Prod.fst) es) ∧ es.length = ts.length ∧
      ∀ free, Fits free σ' → ∀ et ∈ es.zip ts, et.1.Denotes free bound et.2

/-- **Names stand for what they stand for under lexical scoping.** -/
theorem scoping (bound : List (String × Var)) (e : Sexp) : Scoped bound e := by
  -- along the recursion of the reader, for the members of a list at the same time
  refine term.induct Scoped AllScoped ?leaf ?constant ?lambda ?undeclared ?badLambda ?literal
    ?bad ?nil ?cons bound e
  case leaf =>
    intro bound text hvar t σ σ' h
    rw [term.eq_1, if_pos hvar, run_bind_eq_ok_iff] at h
    obtain ⟨v, σ₁, hv, h⟩ := h
    obtain ⟨rfl, rfl⟩ := run_pure_eq_ok_iff.1 h
    obtain ⟨htable, hfound⟩ := tabulates_of_run_reference hv
    rw [references, if_pos hvar]
    refine ⟨htable, fun free hfits => ?_⟩
    rw [hfound free hfits]
    exact .ref hvar
  case constant =>
    intro bound text hconst t σ σ' h
    rw [term.eq_1, if_neg hconst, run_bind_eq_ok_iff] at h
    obtain ⟨c, σ₁, hc, h⟩ := h
    obtain ⟨rfl, rfl⟩ := run_pure_eq_ok_iff.1 h
    obtain ⟨hatom, rfl⟩ := run_liftM_eq_ok_iff.1 hc
    rw [references, if_neg hconst]
    exact ⟨.nil σ, fun free _ => .const hconst hatom⟩
  case lambda =>
    intro bound decl body name tag hdecl ih t σ σ' h
    simp only [term.eq_2, hdecl, run_bind_eq_ok_iff, run_liftM_eq_ok_iff, run_newVar_eq_ok_iff,
      run_pure_eq_ok_iff, Ty.read_eq_ok_iff] at h
    obtain ⟨ty, σ₁, ⟨hty, rfl⟩, v, σ₂, ⟨rfl, rfl⟩, b, σ₃, hb, rfl, rfl⟩ := h
    obtain ⟨htable, hdenotes⟩ := ih _ b _ _ hb
    rw [references, declaration?_name hdecl]
    exact ⟨⟨htable.grows, htable.known, htable.origin⟩,
      fun free hfits => .lam hdecl hty (hdenotes free hfits)⟩
  case undeclared =>
    intro bound decl body hdecl t σ σ' h
    simp only [term.eq_2, hdecl, run_throw_eq_ok_iff] at h
  case badLambda =>
    intro bound es hes t σ σ' h
    simp only [term.eq_3 bound es hes, run_throw_eq_ok_iff] at h
  case literal =>
    intro bound p a as hlam hp ihp ihas t σ σ' h
    simp only [term.eq_4 bound p a as hlam hp, run_bind_eq_ok_iff, run_pure_eq_ok_iff] at h
    obtain ⟨q, σ₁, hq, bs, σ₂, hbs, rfl, rfl⟩ := h
    obtain ⟨htable, hdenotes⟩ := ihp q _ _ hq
    obtain ⟨htable', hlength, hdenotes'⟩ := ihas bs _ _ hbs
    rw [references_list hp]
    refine ⟨htable.append htable', fun free hfits => .lit hp (by simp) ?_ hlength ?_⟩
    · exact hdenotes free (hfits.of_grows htable'.grows)
    · exact hdenotes' free hfits
  case bad =>
    intro bound es h₁ h₂ h₃ t σ σ' h
    simp only [term.eq_5 bound es h₁ h₂ h₃, run_throw_eq_ok_iff] at h
  case nil =>
    intro bound ts σ σ' h
    obtain ⟨rfl, rfl⟩ := run_pure_eq_ok_iff.1 h
    exact ⟨.nil σ, rfl, by simp⟩
  case cons =>
    intro bound e es ihe ihes ts σ σ' h
    simp only [terms, run_bind_eq_ok_iff, run_pure_eq_ok_iff] at h
    obtain ⟨t, σ₁, ht, us, σ₂, hus, rfl, rfl⟩ := h
    obtain ⟨htable, hdenotes⟩ := ihe t _ _ ht
    obtain ⟨htable', hlength, hdenotes'⟩ := ihes us _ _ hus
    refine ⟨htable.append htable', by simp [hlength], fun free hfits => ?_⟩
    rw [List.zip_cons_cons, List.forall_mem_cons]
    exact ⟨hdenotes free (hfits.of_grows htable'.grows), hdenotes' free hfits⟩

end TermReader

namespace Term

/-! ### Leaves of bound variables -/

variable {t : Term} {v : Var} {l : Leaf}

theorem map_fst_lambdas (t : Term) : t.lambdas.map Prod.fst = t.binders := by
  induction t with
  | const c => rfl
  | var v => rfl
  | lam v body ih => simp [ih]
  | lit p as ihp ihas =>
    rw [lambdas_lit, binders_lit, List.map_append, ihp, List.map_flatMap]
    congr 1
    exact List.flatMap_congr fun a ha => ihas a ha

/-- A leaf of a variable lies in a lambda of the term that binds it, or is free in the term and
bound outside of it, if at all. -/
theorem body?_of_mem_leavesIn {scope : List (Var × Term)} (hl : l ∈ t.leavesIn scope)
    (hv : l.term = .var v) :
    (∃ body, l.body? = some body ∧ (v, body) ∈ t.lambdas) ∨
      (v ∈ t.freeLeaves ∧ l.body? = scope.lookup v) := by
  induction t generalizing scope with
  | const c =>
    rw [leavesIn_const, List.mem_singleton] at hl
    subst hl
    cases hv
  | var w =>
    rw [leavesIn_var, List.mem_singleton] at hl
    subst hl
    cases hv
    exact .inr ⟨by simp, rfl⟩
  | lam w body ih =>
    rw [leavesIn_lam] at hl
    rcases ih hl with ⟨b, hb, hmem⟩ | ⟨hfree, hb⟩
    · exact .inl ⟨b, hb, by simp [hmem]⟩
    · rw [List.lookup_cons] at hb
      by_cases hvw : v = w
      · exact .inl ⟨body, by simpa [hvw] using hb, by simp [hvw]⟩
      · rw [beq_false_of_ne hvw] at hb
        exact .inr ⟨by simp [hfree, hvw], hb⟩
  | lit p as ihp ihas =>
    rw [leavesIn_lit, List.mem_append, List.mem_flatMap] at hl
    rcases hl with hl | ⟨a, ha, hl⟩
    · rcases ihp hl with ⟨b, hb, hmem⟩ | ⟨hfree, hb⟩
      · exact .inl ⟨b, hb, by simp [hmem]⟩
      · exact .inr ⟨by simp [hfree], hb⟩
    · rcases ihas a ha hl with ⟨b, hb, hmem⟩ | ⟨hfree, hb⟩
      · refine .inl ⟨b, hb, ?_⟩
        rw [lambdas_lit, List.mem_append, List.mem_flatMap]
        exact .inr ⟨a, ha, hmem⟩
      · refine .inr ⟨?_, hb⟩
        rw [freeLeaves_lit, List.mem_append, List.mem_flatMap]
        exact .inr ⟨a, ha, hfree⟩

theorem filter_lambdas {ls : List (Var × Term)} (h : (ls.map Prod.fst).Nodup) {body : Term}
    (hmem : (v, body) ∈ ls) : (ls.filter fun m => m.1 = v) = [(v, body)] := by
  induction ls with
  | nil => cases hmem
  | cons m ls ih =>
    rw [List.map_cons, List.nodup_cons] at h
    rcases List.mem_cons.1 hmem with rfl | hmem
    · rw [List.filter_cons_of_pos (by simp), List.filter_eq_nil_iff.2]
      intro m hm heq
      exact h.1 (List.mem_map.2 ⟨m, hm, by simpa using heq⟩)
    · have hne : m.1 ≠ v := by
        rintro rfl
        exact h.1 (List.mem_map.2 ⟨(m.1, body), hmem, rfl⟩)
      rw [List.filter_cons_of_neg (by simpa using hne), ih h.2 hmem]

/-- In a hygienic term a leaf of a bound variable lies in the body of its only lambda. -/
theorem Hygienic.body?_of_mem_leaves (h : t.Hygienic) (hv : v ∈ t.binders) (hl : l ∈ t.leaves)
    (hterm : l.term = .var v) :
    ∃ body, l.body? = some body ∧ (t.lambdas.filter fun m => m.1 = v) = [(v, body)] := by
  rcases body?_of_mem_leavesIn hl hterm with ⟨body, hbody, hmem⟩ | ⟨hfree, -⟩
  · exact ⟨body, hbody, filter_lambdas (by rw [map_fst_lambdas]; exact h.1) hmem⟩
  · exact absurd hfree (h.2 v hv)

end Term

/-! ### Texts -/

/-- The term is what the expression stands for under lexical scoping, with a variable of its own for
each lambda and for each free name. -/
structure Sexp.Lexical (e : Sexp) (free : String → Var) (t : Term) : Prop where
  denotes : e.Denotes free [] t
  typed : ∀ name ∈ freeNames (e.references []),
    FirstTyped (e.references []) name (free name).ty
  free_apart : ∀ name ∈ freeNames (e.references []), ∀ other ∈ freeNames (e.references []),
    (free name).id = (free other).id → name = other
  binders_apart : (t.binders.map Var.id).Nodup
  binders_not_free : ∀ v ∈ t.binders, ∀ name ∈ freeNames (e.references []),
    v.id ≠ (free name).id
  inside : ∀ l ∈ t.leaves, ∀ v ∈ t.binders, l.term = .var v →
    ∃ body, l.body? = some body ∧ (t.lambdas.filter fun m => m.1 = v) = [(v, body)]

namespace Term

/-- A run of the reader from the empty table makes the term of a lexical reading. -/
theorem lexical_of_run {e : Sexp} {next : Nat} {t : Term} {σ : Supply} (hword : e.WellFormed)
    (h : (TermReader.term [] e).run ⟨[], next⟩ = .ok (t, σ)) : ∃ free, e.Lexical free t := by
  obtain ⟨htable, hdenotes⟩ := TermReader.scoping [] e t _ _ h
  have hintro : Introduces [] ⟨[], next⟩ σ [t] :=
    TermReader.sound [] e t _ _ hword ⟨by simp [known], by simp [known]⟩ h
  have hfreeIds := hintro.free_nodup List.nodup_nil
  have hbinders : (t.binders.map Var.id).Nodup := by simpa using hintro.nodup
  have hfits : Fits (fun name => (σ.free.lookup name).getD default) σ := by
    intro name v hv
    simp [hv]
  -- the entry of a free name
  have hentry : ∀ name ∈ freeNames (e.references []), ∃ v, σ.free.lookup name = some v ∧
      (name, v) ∈ σ.free := by
    intro name hname
    obtain ⟨v, hv⟩ := htable.known name hname
    obtain ⟨l₁, l₂, hl, -⟩ := List.lookup_eq_some_iff.1 hv
    exact ⟨v, hv, by simp [hl]⟩
  refine ⟨_, hdenotes _ hfits, ?_, ?_, hbinders, ?_, fun l hl v hv hterm =>
    (hintro.distinctIds List.nodup_nil).hygienic.body?_of_mem_leaves hv hl hterm⟩
  · intro name hname
    obtain ⟨v, hv, -⟩ := hentry name hname
    rw [hv]
    exact (htable.origin name v hv).resolve_left (by simp)
  · intro name hname other hother hid
    obtain ⟨v, hv, hmem⟩ := hentry name hname
    obtain ⟨w, hw, hmem'⟩ := hentry other hother
    rw [hv, hw] at hid
    have hsame : (name, v) = (other, w) := List.inj_on_of_nodup_map hfreeIds hmem hmem' hid
    exact (Prod.mk.inj hsame).1
  · intro v hv name hname
    obtain ⟨w, hw, hmem⟩ := hentry name hname
    rw [hw]
    exact hintro.binder_not_free v (by simpa using hv) w (List.mem_map_of_mem hmem)

/-- **Scoping is lexical.**  A text that is read stands for the term that is made of it: each
reference is the variable of the innermost lambda around it that binds its name, and else the one
free variable of its name, whose type its first free reference gives.  All lambdas bind different
variables, none of them free, so every leaf of a bound variable lies in the body of its only
lambda. -/
theorem readFrom_lexical {next n : Nat} {s : String} {t : Term}
    (h : readFrom next s = .ok (t, n)) :
    ∃ e free, Spells [e] s.toList ∧ e.Lexical free t := by
  obtain ⟨e, σ, hread, hrun, -⟩ := readFrom_eq_ok_iff.1 h
  obtain ⟨free, hlexical⟩ := lexical_of_run (wellFormed_of_readAll hread e (by simp)) hrun
  exact ⟨e, free, readAll_eq_ok_iff.1 hread, hlexical⟩

/-- A name that is bound twice, one lambda inside the other, that is bound once more, and that is
free at last, with two types. -/
def shadowsText : String :=
  "(p:t (lambda $x:e (q:t (lambda $x:t $x) $x $y:e)) (lambda $x:e $y) $x:t $x:e)"

/-- The term of `shadowsText`. -/
def shadows : Term :=
  let e : Ty := .atom "e"
  let t : Ty := .atom "t"
  .lit (.const ⟨"p", t⟩)
    [.lam ⟨0, e⟩ (.lit (.const ⟨"q", t⟩)
      [.lam ⟨1, t⟩ (.var ⟨1, t⟩), .var ⟨0, e⟩, .var ⟨2, e⟩]),
     .lam ⟨3, e⟩ (.var ⟨2, e⟩), .var ⟨4, t⟩, .var ⟨4, t⟩]

theorem readFrom_shadowsText : readFrom 0 shadowsText = .ok (shadows, 5) := by
  decide +kernel

theorem readFrom_lexical_shadows :
    readFrom 0 shadowsText = .ok (shadows, 5) ∧
      ∃ e free, Spells [e] shadowsText.toList ∧ e.Lexical free shadows :=
  ⟨readFrom_shadowsText, readFrom_lexical readFrom_shadowsText⟩

end Term

end LogicalForms
