import LogicalForms.Term.Reader
import Mathlib.Data.List.Basic
import Mathlib.Tactic.Common

/-!
# Lexical binding

The reader of terms keeps the variables of a name on a stack, which it changes at every lambda.
`TermReader.term` reads without stacks: the names that are bound around an expression are an
argument.  The two give the same terms and the same errors (`TermReader.simulates`), because the
stacks hold the same variables after an expression as before it (`Stacks.Mirrors`).
-/

namespace LogicalForms

open Text

/-! ### Stacks -/

namespace Stacks

variable {table : Stacks} {bound : List (String × Var)} {name n : String} {v : Var}

@[simp] theorem get_nil (n : String) : get [] n = [] := rfl

theorem get_cons (entry : String × List Var) (table : Stacks) (n : String) :
    get (entry :: table) n = if n = entry.1 then entry.2 else table.get n := by
  unfold get
  rw [List.lookup_cons]
  by_cases h : n = entry.1
  · simp [h]
  · rw [beq_false_of_ne h, if_neg h]

theorem get_push (table : Stacks) (name : String) (v : Var) (n : String) :
    (push name v table).get n = if n = name then v :: table.get n else table.get n := by
  induction table with
  | nil => rw [push, get_cons, get_nil]
  | cons entry table ih =>
    rw [push, get_cons]
    split_ifs with hname hn hn <;> simp_all [get_cons]

theorem get_pop (table : Stacks) (name n : String) :
    (pop name table).get n = if n = name then (table.get n).tail else table.get n := by
  induction table with
  | nil => simp [pop]
  | cons entry table ih =>
    rw [pop, get_cons]
    split_ifs with hname hn hn <;> simp_all [get_cons]

/-- On the stack of each name are the variables that are bound by it, the innermost first. -/
def Mirrors (table : Stacks) (bound : List (String × Var)) : Prop :=
  ∀ name, table.get name = (bound.filter fun b => b.1 = name).map Prod.snd

theorem mirrors_nil : Mirrors [] [] := fun _ => rfl

theorem Mirrors.head?_get (h : table.Mirrors bound) (name : String) :
    (table.get name).head? = bound.lookup name := by
  rw [h name]
  clear h
  induction bound with
  | nil => rfl
  | cons b bound ih =>
    rw [List.lookup_cons]
    by_cases hb : b.1 = name
    · simp [hb]
    · rw [List.filter_cons_of_neg (by simpa using hb), ih, beq_false_of_ne (Ne.symm hb)]

theorem Mirrors.push (h : table.Mirrors bound) (name : String) (v : Var) :
    (push name v table).Mirrors ((name, v) :: bound) := by
  intro n
  rw [get_push, h n]
  by_cases hn : n = name
  · simp [hn]
  · simp [hn, Ne.symm hn]

theorem Mirrors.pop (h : table.Mirrors ((name, v) :: bound)) : (pop name table).Mirrors bound := by
  intro n
  rw [get_pop, h n]
  by_cases hn : n = name
  · simp [hn]
  · simp [hn, Ne.symm hn]

end Stacks

/-! ### Reading without stacks -/

/-- Readers that make new variables. -/
abbrev TermReader := StateT Supply (Except ReadError)

namespace TermReader

/-- A new variable of that type. -/
def newVar (ty : Ty) : TermReader Var :=
  modifyGet fun s => (⟨s.next, ty⟩, { s with next := s.next + 1 })

/-- The variable that an atom refers to where these names are bound, the innermost first. -/
def reference (bound : List (String × Var)) (atom : String) : TermReader Var := do
  let (name, tag) := match splitAtFirst ':' atom.toList with
    | some (name, tag) => (String.ofList name, some tag)
    | none => (atom, none)
  match bound.lookup name with
  | some v => return v
  | none =>
    match (← get).free.lookup name with
    | some v => return v
    | none =>
      match tag with
      | some tag =>
        let v ← newVar (← Ty.read tag)
        modify fun s => { s with free := (name, v) :: s.free }
        return v
      | none => throw (.unbound atom)

mutual

/-- The term that an expression stands for where these names are bound, the innermost first. -/
def term (bound : List (String × Var)) : Sexp → TermReader Term
  | .atom text =>
    if text.toList.head? = some '$' then return .var (← reference bound text)
    else return .const (← Constant.ofAtom text)
  | .list [.atom "lambda", .atom decl, body] => do
    match declaration? decl with
    | some (name, tag) =>
      let v ← newVar (← Ty.read tag)
      return .lam v (← term ((name, v) :: bound) body)
    | none => throw (.badLambda (Sexp.list [.atom "lambda", .atom decl, body]).render)
  | .list (.atom "lambda" :: es) => throw (.badLambda (Sexp.list (.atom "lambda" :: es)).render)
  | .list (p :: a :: as) => do
    let p ← term bound p
    return .lit p (← terms bound (a :: as))
  | .list es => throw (.noArguments (Sexp.list es).render)

/-- The terms that expressions stand for where these names are bound, in order. -/
def terms (bound : List (String × Var)) : List Sexp → TermReader (List Term)
  | [] => return []
  | e :: es => do
    let t ← term bound e
    return t :: (← terms bound es)

end

/-! ### References -/

/-- The name in a reference, and the type behind its first colon. -/
def referenceParts (atom : String) : String × Option (List Char) :=
  match splitAtFirst ':' atom.toList with
  | some (name, tag) => (String.ofList name, some tag)
  | none => (atom, none)

/-- A new free variable of that name and type. -/
def introduce (σ : Supply) (name : String) (ty : Ty) : Var × Supply :=
  (⟨σ.next, ty⟩, ⟨(name, ⟨σ.next, ty⟩) :: σ.free, σ.next + 1⟩)

/-- How the variable of a reference is found. -/
theorem run_reference (bound : List (String × Var)) (atom : String) (σ : Supply) :
    (reference bound atom).run σ =
      match bound.lookup (referenceParts atom).1 with
      | some v => .ok (v, σ)
      | none =>
        match σ.free.lookup (referenceParts atom).1 with
        | some v => .ok (v, σ)
        | none =>
          match (referenceParts atom).2 with
          | some tag => (Ty.read tag).map (introduce σ (referenceParts atom).1)
          | none => .error (.unbound atom) := by
  unfold reference referenceParts
  -- a reference without a type differs from one with a type only where the name is unknown
  cases splitAtFirst ':' atom.toList with
  | none =>
    simp only
    cases bound.lookup atom with
    | some v => rfl
    | none =>
      change (match σ.free.lookup atom with
        | some v => (pure v : TermReader Var)
        | none => throw (ReadError.unbound atom)).run σ = _
      cases σ.free.lookup atom <;> rfl
  | some p =>
    obtain ⟨name, tag⟩ := p
    simp only
    cases bound.lookup (String.ofList name) with
    | some v => rfl
    | none =>
      change (match σ.free.lookup (String.ofList name) with
        | some v => (pure v : TermReader Var)
        | none => do
          let ty ← liftM (Ty.read tag)
          let v ← newVar ty
          modify fun s : Supply => ⟨(String.ofList name, v) :: s.free, s.next⟩
          pure v).run σ = _
      cases σ.free.lookup (String.ofList name) with
      | some v => rfl
      | none => cases Ty.read tag <;> rfl

theorem run_scoped_reference (atom : String) (σ : Supply) (table : Stacks) :
    (ScopedReader.reference atom).run ⟨σ, table⟩ =
      match (table.get (referenceParts atom).1).head? with
      | some v => .ok (v, ⟨σ, table⟩)
      | none =>
        match σ.free.lookup (referenceParts atom).1 with
        | some v => .ok (v, ⟨σ, table⟩)
        | none =>
          match (referenceParts atom).2 with
          | some tag => (Ty.read tag).map fun ty =>
            ((introduce σ (referenceParts atom).1 ty).1,
              ⟨(introduce σ (referenceParts atom).1 ty).2, table⟩)
          | none => .error (.unbound atom) := by
  unfold ScopedReader.reference referenceParts
  cases splitAtFirst ':' atom.toList with
  | none =>
    change (match (table.get atom).head? with
      | some v => (pure v : ScopedReader Var)
      | none => do
        match (← get).free.lookup atom with
        | some v => (pure v : ScopedReader Var)
        | none => throw (ReadError.unbound atom)).run ⟨σ, table⟩ = _
    simp only
    cases (table.get atom).head? with
    | some v => rfl
    | none =>
      change (match σ.free.lookup atom with
        | some v => (pure v : ScopedReader Var)
        | none => throw (ReadError.unbound atom)).run ⟨σ, table⟩ = _
      cases σ.free.lookup atom <;> rfl
  | some p =>
    obtain ⟨name, tag⟩ := p
    change (match (table.get (String.ofList name)).head? with
      | some v => (pure v : ScopedReader Var)
      | none => do
        match (← get).free.lookup (String.ofList name) with
        | some v => (pure v : ScopedReader Var)
        | none => do
          let ty ← liftM (Ty.read tag)
          let v ← ScopedReader.newVar ty
          modify fun s : Scope => { s with free := (String.ofList name, v) :: s.free }
          pure v).run ⟨σ, table⟩ = _
    simp only
    cases (table.get (String.ofList name)).head? with
    | some v => rfl
    | none =>
      change (match σ.free.lookup (String.ofList name) with
        | some v => (pure v : ScopedReader Var)
        | none => do
          let ty ← liftM (Ty.read tag)
          let v ← ScopedReader.newVar ty
          modify fun s : Scope => { s with free := (String.ofList name, v) :: s.free }
          pure v).run ⟨σ, table⟩ = _
      cases σ.free.lookup (String.ofList name) with
      | some v => rfl
      | none => cases Ty.read tag <;> rfl

/-! ### The two readers -/

/-- The reader with stacks does the same as the one without, as long as its stacks hold the names
that are bound; then they hold them again behind it. -/
def Simulates {α : Type} (bound : List (String × Var)) (x : ScopedReader α) (y : TermReader α) :
    Prop :=
  ∀ (σ : Supply) (table : Stacks), table.Mirrors bound →
    match y.run σ with
    | .ok (a, σ') => ∃ table', x.run ⟨σ, table⟩ = .ok (a, ⟨σ', table'⟩) ∧ table'.Mirrors bound
    | .error e => x.run ⟨σ, table⟩ = .error e

namespace Simulates

variable {α β : Type} {bound : List (String × Var)}

theorem pure (a : α) :
    Simulates bound (pure a : ScopedReader α) (pure a : TermReader α) :=
  fun _ table h => ⟨table, rfl, h⟩

theorem throw (e : ReadError) :
    Simulates bound (throw e : ScopedReader α) (throw e : TermReader α) :=
  fun _ _ _ => rfl

theorem liftM (x : Except ReadError α) :
    Simulates bound (liftM x : ScopedReader α) (liftM x : TermReader α) := by
  intro σ table h
  cases x with
  | ok a => exact ⟨table, rfl, h⟩
  | error e => rfl

theorem newVar (ty : Ty) : Simulates bound (ScopedReader.newVar ty) (newVar ty) :=
  fun _ table h => ⟨table, rfl, h⟩

theorem bind {x : ScopedReader α} {y : TermReader α} {f : α → ScopedReader β}
    {g : α → TermReader β} (h : Simulates bound x y) (hf : ∀ a, Simulates bound (f a) (g a)) :
    Simulates bound (x >>= f) (y >>= g) := by
  intro σ table htable
  have hxy := h σ table htable
  rw [StateT.run_bind, StateT.run_bind]
  cases hy : y.run σ with
  | error e =>
    rw [hy] at hxy
    rw [hxy]
    rfl
  | ok p =>
    obtain ⟨a, σ'⟩ := p
    rw [hy] at hxy
    obtain ⟨table', hx, htable'⟩ := hxy
    rw [hx]
    exact hf a σ' table' htable'

/-- A name that is bound in what is read next is pushed before it and popped behind it. -/
theorem enclose {x : ScopedReader α} {y : TermReader α} {name : String} {v : Var}
    (h : Simulates ((name, v) :: bound) x y) (f : α → β) :
    Simulates bound
      (do
        ScopedReader.push name v
        let a ← x
        ScopedReader.pop name
        return f a)
      (do return f (← y)) := by
  intro σ table htable
  have hxy := h σ (Stacks.push name v table) (htable.push name v)
  have hpush : (do
      ScopedReader.push name v
      let a ← x
      ScopedReader.pop name
      return f a : ScopedReader β).run ⟨σ, table⟩ =
        x.run ⟨σ, Stacks.push name v table⟩ >>= fun p =>
          Except.ok (f p.1, ⟨p.2.toSupply, Stacks.pop name p.2.bound⟩) := rfl
  rw [hpush, StateT.run_bind]
  cases hy : y.run σ with
  | error e =>
    rw [hy] at hxy
    rw [hxy]
    rfl
  | ok p =>
    obtain ⟨a, σ'⟩ := p
    rw [hy] at hxy
    obtain ⟨table', hx, htable'⟩ := hxy
    rw [hx]
    exact ⟨Stacks.pop name table', rfl, htable'.pop⟩

/-- The variable of a reference is on top of the stack of its name, or is free. -/
theorem reference (bound : List (String × Var)) (atom : String) :
    Simulates bound (ScopedReader.reference atom) (reference bound atom) := by
  intro σ table htable
  rw [run_scoped_reference, run_reference, htable.head?_get]
  cases bound.lookup (referenceParts atom).1 with
  | some v => exact ⟨table, rfl, htable⟩
  | none =>
    cases σ.free.lookup (referenceParts atom).1 with
    | some v => exact ⟨table, rfl, htable⟩
    | none =>
      cases (referenceParts atom).2 with
      | none => rfl
      | some tag =>
        dsimp only
        cases Ty.read tag with
        | error e => rfl
        | ok ty => exact ⟨table, rfl, htable⟩

end Simulates

/-- The reader with stacks reads the expression as it is read without them. -/
def Agrees (bound : List (String × Var)) (e : Sexp) : Prop :=
  Simulates bound (ScopedReader.term e) (term bound e)

/-- The reader with stacks reads the expressions as they are read without them. -/
def AllAgree (bound : List (String × Var)) (es : List Sexp) : Prop :=
  Simulates bound (ScopedReader.terms es) (terms bound es)

/-- **The reader with stacks binds lexically.** -/
theorem simulates (bound : List (String × Var)) (e : Sexp) :
    Simulates bound (ScopedReader.term e) (term bound e) := by
  -- along the recursion of the reader, for the members of a list at the same time
  refine term.induct Agrees AllAgree ?leaf ?constant ?lambda ?undeclared ?badLambda ?literal
    ?bad ?nil ?cons bound e
  case leaf =>
    intro bound text hvar
    rw [Agrees, term.eq_1, if_pos hvar, ScopedReader.term.eq_1, if_pos hvar]
    exact (Simulates.reference bound text).bind fun v => .pure _
  case constant =>
    intro bound text hconst
    rw [Agrees, term.eq_1, if_neg hconst, ScopedReader.term.eq_1, if_neg hconst]
    exact (Simulates.liftM (Constant.ofAtom text)).bind fun c => .pure _
  case lambda =>
    intro bound decl body name tag hdecl ih
    rw [Agrees, term.eq_2, ScopedReader.term.eq_2]
    simp only [hdecl]
    exact (Simulates.liftM (Ty.read tag)).bind fun ty => (Simulates.newVar ty).bind fun v =>
      Simulates.enclose (ih v) (Term.lam v)
  case undeclared =>
    intro bound decl body hdecl
    rw [Agrees, term.eq_2, ScopedReader.term.eq_2]
    simp only [hdecl]
    exact .throw _
  case badLambda =>
    intro bound es hes
    rw [Agrees, term.eq_3 bound es hes, ScopedReader.term.eq_3 es hes]
    exact .throw _
  case literal =>
    intro bound p a as hlam hp ihp ihas
    rw [Agrees, term.eq_4 bound p a as hlam hp, ScopedReader.term.eq_4 p a as hlam hp]
    exact Simulates.bind ihp fun q => Simulates.bind ihas fun bs => .pure _
  case bad =>
    intro bound es h₁ h₂ h₃
    rw [Agrees, term.eq_5 bound es h₁ h₂ h₃, ScopedReader.term.eq_5 es h₁ h₂ h₃]
    exact .throw _
  case nil => exact fun bound => .pure _
  case cons =>
    intro bound e es ihe ihes
    rw [AllAgree, terms, ScopedReader.terms]
    exact Simulates.bind ihe fun t => Simulates.bind ihes fun ts => .pure _

theorem map_run_term (e : Sexp) (next : Nat) :
    ((ScopedReader.term e).run ⟨⟨[], next⟩, []⟩).map (fun p => (p.1, p.2.next)) =
      ((term [] e).run ⟨[], next⟩).map fun p => (p.1, p.2.next) := by
  have h := simulates [] e ⟨[], next⟩ [] Stacks.mirrors_nil
  cases hrun : (term [] e).run ⟨[], next⟩ with
  | error err =>
    rw [hrun] at h
    rw [h]
    rfl
  | ok p =>
    rw [hrun] at h
    obtain ⟨table, hscoped, -⟩ := h
    rw [hscoped]
    rfl

end TermReader

end LogicalForms
