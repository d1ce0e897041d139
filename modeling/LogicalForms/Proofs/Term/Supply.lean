import LogicalForms.Proofs.Term.Identity

/-!
# Identities from a counter

The reader takes the identities of new variables from a counter, which every text that is read moves
on.  When the counter starts higher, the reader does the same, and all identities that it hands out
are higher by the same number (`TermReader.shifts`).  So a text is unreadable for the same reason, or
is read as the same term with other identities (`Term.readFrom_shift`), and no anonymous observation
tells the difference (`Term.Anonymous.counterFree`).
-/

namespace LogicalForms

/-! ### Higher identities -/

/-- The variable whose identity is higher by `k`. -/
def Var.shift (k : ℕ) (v : Var) : Var := ⟨v.id + k, v.ty⟩

/-- The names stand for the variables whose identities are higher by `k`. -/
def shiftNames (k : ℕ) (names : List (String × Var)) : List (String × Var) :=
  names.map (Prod.map id (Var.shift k))

/-- The supply whose identities are higher by `k`. -/
def Supply.shift (k : ℕ) (σ : Supply) : Supply := ⟨shiftNames k σ.free, σ.next + k⟩

theorem Var.shift_injective (k : ℕ) : Function.Injective (shift k) := by
  rintro ⟨id, ty⟩ ⟨id', ty'⟩ h
  simpa [shift] using h

theorem lookup_shiftNames (k : ℕ) (names : List (String × Var)) (name : String) :
    (shiftNames k names).lookup name = (names.lookup name).map (Var.shift k) :=
  lookup_map_snd _ _ _

/-! ### The reader -/

namespace TermReader

/-- From a supply whose identities are higher by `k`, the reader `y` does what `x` does from the
supply itself, and `f` takes the result of `x` to its own. -/
def Shifts {α : Type} (k : ℕ) (f : α → α) (x y : TermReader α) : Prop :=
  ∀ σ, y.run (Supply.shift k σ) = (x.run σ).map (Prod.map f (Supply.shift k))

namespace Shifts

variable {α β : Type} {k : ℕ} {f : α → α} {g : β → β}

theorem pure (a : α) : Shifts k f (pure a : TermReader α) (pure (f a) : TermReader α) :=
  fun _ => rfl

theorem throw (e : ReadError) : Shifts k f (throw e : TermReader α) (throw e : TermReader α) :=
  fun _ => rfl

theorem liftM (x : Except ReadError α) :
    Shifts k id (liftM x : TermReader α) (liftM x : TermReader α) := by
  intro σ
  cases x <;> rfl

theorem newVar (ty : Ty) : Shifts k (Var.shift k) (newVar ty) (newVar ty) := by
  intro σ
  rw [run_newVar, run_newVar]
  simp [Except.map, Supply.shift, Var.shift, Nat.add_right_comm]

theorem bind {x y : TermReader α} {u w : α → TermReader β} (h : Shifts k f x y)
    (hrest : ∀ a, Shifts k g (u a) (w (f a))) : Shifts k g (x >>= u) (y >>= w) := by
  intro σ
  rw [StateT.run_bind, StateT.run_bind, h σ]
  cases x.run σ with
  | error e => rfl
  | ok p => exact hrest p.1 p.2

theorem reference (bound : List (String × Var)) (atom : String) :
    Shifts k (Var.shift k) (reference bound atom) (reference (shiftNames k bound) atom) := by
  intro σ
  have hfree : (Supply.shift k σ).free = shiftNames k σ.free := rfl
  rw [run_reference, run_reference, hfree, lookup_shiftNames, lookup_shiftNames]
  cases bound.lookup (referenceParts atom).1 with
  | some v => rfl
  | none =>
    cases σ.free.lookup (referenceParts atom).1 with
    | some v => rfl
    | none =>
      cases (referenceParts atom).2 with
      | none => rfl
      | some tag =>
        simp only [Option.map_none]
        cases Ty.read tag with
        | error e => rfl
        | ok ty =>
          simp [Except.map, introduce, Supply.shift, shiftNames, Var.shift, Nat.add_right_comm]

end Shifts

/-- The expression is read in the same way when all identities are higher. -/
def ReadsShifted (k : ℕ) (bound : List (String × Var)) (e : Sexp) : Prop :=
  Shifts k (Term.rename (Var.shift k)) (term bound e) (term (shiftNames k bound) e)

/-- The expressions are read in the same way when all identities are higher. -/
def AllReadShifted (k : ℕ) (bound : List (String × Var)) (es : List Sexp) : Prop :=
  Shifts k (List.map (Term.rename (Var.shift k))) (terms bound es) (terms (shiftNames k bound) es)

/-- **The reader hands out higher identities when its counter starts higher,** and does nothing else
in another way. -/
theorem shifts (k : ℕ) (bound : List (String × Var)) (e : Sexp) : ReadsShifted k bound e := by
  -- along the recursion of the reader, for the members of a list at the same time
  refine term.induct (ReadsShifted k) (AllReadShifted k) ?leaf ?constant ?lambda ?undeclared
    ?badLambda ?literal ?bad ?nil ?cons bound e
  case leaf =>
    intro bound text hvar
    rw [ReadsShifted, term.eq_1, if_pos hvar, term.eq_1, if_pos hvar]
    exact (Shifts.reference bound text).bind fun v => .pure _
  case constant =>
    intro bound text hconst
    rw [ReadsShifted, term.eq_1, if_neg hconst, term.eq_1, if_neg hconst]
    exact (Shifts.liftM (Constant.ofAtom text)).bind fun c => .pure _
  case lambda =>
    intro bound decl body name tag hdecl ih
    rw [ReadsShifted, term.eq_2, term.eq_2]
    simp only [hdecl]
    exact (Shifts.liftM (Ty.read tag)).bind fun ty => (Shifts.newVar ty).bind fun v =>
      (ih v).bind fun b => .pure _
  case undeclared =>
    intro bound decl body hdecl
    rw [ReadsShifted, term.eq_2, term.eq_2]
    simp only [hdecl]
    exact .throw _
  case badLambda =>
    intro bound es hes
    rw [ReadsShifted, term.eq_3 _ es hes, term.eq_3 _ es hes]
    exact .throw _
  case literal =>
    intro bound p a as hlam hp ihp ihas
    rw [ReadsShifted, term.eq_4 _ p a as hlam hp, term.eq_4 _ p a as hlam hp]
    refine Shifts.bind ihp fun q => Shifts.bind ihas fun bs => ?_
    rw [← Term.rename_lit]
    exact .pure _
  case bad =>
    intro bound es h₁ h₂ h₃
    rw [ReadsShifted, term.eq_5 _ es h₁ h₂ h₃, term.eq_5 _ es h₁ h₂ h₃]
    exact .throw _
  case nil => exact fun bound => .pure _
  case cons =>
    intro bound e es ihe ihes
    rw [AllReadShifted, terms, terms]
    exact Shifts.bind ihe fun t => Shifts.bind ihes fun ts => .pure _

end TermReader

/-! ### The terms of a text -/

namespace Term

/-- **The counter decides the identities and nothing else.** -/
theorem readFrom_shift (next k : ℕ) (s : String) :
    readFrom (next + k) s = (readFrom next s).map fun p => (p.1.rename (Var.shift k), p.2 + k) := by
  rw [readFrom_eq, readFrom_eq]
  cases Sexp.read s with
  | error e => rfl
  | ok es =>
    match es with
    | [e] =>
      change Except.map _ ((TermReader.term (shiftNames k []) e).run
        (Supply.shift k ⟨[], next⟩)) = _
      rw [TermReader.shifts k [] e ⟨[], next⟩]
      dsimp only [bind, Except.bind]
      cases (TermReader.term [] e).run ⟨[], next⟩ <;> rfl
    | [] | _ :: _ :: _ => rfl

/-- What is observed of the term that a text is read as, or why the text is not read, does not depend
on the counter. -/
def CounterFree {β : Type*} (observe : Term → β) : Prop :=
  ∀ next next' s, (readFrom next s).map (fun p => observe p.1) =
    (readFrom next' s).map fun p => observe p.1

/-- **Anonymous observations do not depend on the counter.** -/
theorem Anonymous.counterFree {β : Type*} {observe : Term → β} (h : Anonymous observe) :
    CounterFree observe := by
  -- every counter is compared with the one that starts at zero
  have hzero : ∀ next s, (readFrom next s).map (fun p => observe p.1) =
      (readFrom 0 s).map fun p => observe p.1 := by
    intro next s
    have hshift := readFrom_shift 0 next s
    rw [Nat.zero_add] at hshift
    rw [hshift]
    cases readFrom 0 s with
    | error e => rfl
    | ok p => exact congrArg Except.ok (h (Var.shift_injective next).injOn fun v _ => rfl)
  intro next next' s
  rw [hzero next, hzero next']

end Term

end LogicalForms
