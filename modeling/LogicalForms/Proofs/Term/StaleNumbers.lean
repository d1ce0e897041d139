import LogicalForms.Proofs.List.Lookup
import LogicalForms.Proofs.Term.Numbering

/-!
# Numbers that outlive their lambda

The printer writes a leaf with the latest number of its variable and forgets no number behind a
lambda.  So a leaf may carry the number of a lambda that is closed already, when its variable has
more than one binder or is free elsewhere: it is stale (`Term.staleLeaves`).

* `Numbering.Records` says what the printer's table holds: for a variable whose last lambda is
  closed, the number of that lambda; for every other variable, the number of the nearest lambda
  around that binds it, or the one it was declared with as a free variable.  Printing any term
  keeps it so (`Numbering.Records.toSexpFrom`).
* `Term.NumberedByBinder` says that a text numbers its variables by their binders.  The printed text
  of a term does exactly if the term has no stale leaf (`Term.numberedByBinder_toSexp_iff`).
-/

namespace LogicalForms

open LogicalForms.Numbering

namespace Term

mutual

/-- The leaves that are printed with the number of a closed lambda, where `closed` are the variables
whose last lambda is closed before the term. -/
def staleLeaves (closed : List Var) : Term → List Var
  | .const _ => []
  | .var v => if v ∈ closed then [v] else []
  | .lam v body => body.staleLeaves (closed.filter (· ≠ v))
  | .lit p as => p.staleLeaves closed ++ allStaleLeaves (p.binders ++ closed) as

/-- The stale leaves of the terms, one after the other. -/
def allStaleLeaves (closed : List Var) : List Term → List Var
  | [] => []
  | t :: ts => t.staleLeaves closed ++ allStaleLeaves (t.binders ++ closed) ts

end

mutual

/-- The variables that the printer declares as free ones, with their numbers, the latest first. -/
def declares (ν : Numbering) : Term → List (Var × Nat)
  | .const _ => []
  | .var v => if (ν.number? v).isSome then [] else [(v, ν.next)]
  | .lam v body => body.declares (ν.bind v)
  | .lit p as => allDeclares (p.toSexpFrom ν).2 as ++ p.declares ν

/-- The variables that the printer declares as free ones in the terms, one after the other. -/
def allDeclares (ν : Numbering) : List Term → List (Var × Nat)
  | [] => []
  | t :: ts => allDeclares (t.toSexpFrom ν).2 ts ++ t.declares ν

end

mutual

/-- The expression is the term with numbers for its variables.  A leaf has the number of the nearest
lambda around it that binds its variable, given in `scope`, and else the number of its variable in
`free`; no lambda has a number of `free`, or of a lambda around it. -/
def NumberedIn (free scope : List (Var × Nat)) : Term → Sexp → Prop
  | .const c, e => e = .atom c.render
  | .var v, e =>
    match scope.lookup v with
    | some n => e = .atom (name n)
    | none => ∃ n, free.lookup v = some n ∧ (e = .atom (name n) ∨ e = .atom (v.declaration n))
  | .lam v body, e =>
    ∃ n b, e = .list [.atom "lambda", .atom (v.declaration n), b] ∧
      n ∉ (scope ++ free).map Prod.snd ∧ body.NumberedIn free ((v, n) :: scope) b
  | .lit p as, e =>
    ∃ q es, e = .list (q :: es) ∧ p.NumberedIn free scope q ∧ AllNumberedIn free scope as es

/-- The expressions are the terms with numbers for their variables. -/
def AllNumberedIn (free scope : List (Var × Nat)) : List Term → List Sexp → Prop
  | [], es => es = []
  | t :: ts, es =>
    ∃ q rest, es = q :: rest ∧ t.NumberedIn free scope q ∧ AllNumberedIn free scope ts rest

end

/-- The expression is the term, each bound leaf with the number of its binder, and each free leaf
with the number of its variable, which no lambda and no other free variable has. -/
def NumberedByBinder (t : Term) (e : Sexp) : Prop :=
  ∃ free : List (Var × Nat), (free.map Prod.snd).Nodup ∧ t.NumberedIn free [] e

end Term

/-! ### What the table holds -/

namespace Numbering

/-- The table of the printer, where `scope` are the variables bound by the lambdas around with their
numbers, the innermost first, `closed` the variables whose last lambda is closed, and `free` the
variables declared as free ones with their numbers. -/
structure Records (scope : List (Var × Nat)) (closed : List Var) (free : List (Var × Nat))
    (ν : Numbering) : Prop where
  lt : ∀ n ∈ (scope ++ free).map Prod.snd, n < ν.next
  nodup : ((scope ++ free).map Prod.snd).Nodup
  free_nodup : (free.map Prod.fst).Nodup
  current : ∀ v ∉ closed, ν.number? v = (scope ++ free).lookup v
  stale : ∀ v ∈ closed, ∃ n < ν.next, ν.number? v = some n ∧ n ∉ (scope ++ free).map Prod.snd

namespace Records

variable {scope free : List (Var × Nat)} {closed closed' : List Var} {ν : Numbering} {v : Var}
  {n : Nat}

theorem empty : Records [] [] [] .empty where
  lt := by simp
  nodup := by simp
  free_nodup := by simp
  current _ _ := rfl
  stale := by simp

theorem congr (h : Records scope closed free ν) (hclosed : ∀ v, v ∈ closed' ↔ v ∈ closed) :
    Records scope closed' free ν where
  lt := h.lt
  nodup := h.nodup
  free_nodup := h.free_nodup
  current v hv := h.current v fun hmem => hv ((hclosed v).2 hmem)
  stale v hv := h.stale v ((hclosed v).1 hv)

/-- A lambda brings its argument into scope, where it is not closed any more. -/
theorem enter (h : Records scope closed free ν) (v : Var) :
    Records ((v, ν.next) :: scope) (closed.filter (· ≠ v)) free (ν.bind v) := by
  have hnew : ν.next ∉ (scope ++ free).map Prod.snd := fun hmem =>
    Nat.lt_irrefl _ (h.lt _ hmem)
  constructor
  case lt =>
    intro n hn
    rw [next_bind]
    rcases List.mem_cons.1 hn with rfl | hn
    · exact Nat.lt_succ_self _
    · exact Nat.lt_succ_of_lt (h.lt n hn)
  case nodup => exact List.nodup_cons.2 ⟨hnew, h.nodup⟩
  case free_nodup => exact h.free_nodup
  case current =>
    intro w hw
    rw [number?_bind, List.cons_append, List.lookup_cons]
    by_cases heq : w = v
    · simp [heq]
    · rw [if_neg heq, beq_false_of_ne heq]
      exact h.current w fun hmem => hw (by simp [hmem, heq])
  case stale =>
    intro w hw
    have hmem : w ∈ closed ∧ w ≠ v := by simpa using hw
    obtain ⟨n, hlt, hn, hnot⟩ := h.stale w hmem.1
    refine ⟨n, Nat.lt_succ_of_lt hlt, by rw [number?_bind, if_neg hmem.2, hn], ?_⟩
    rw [List.cons_append, List.map_cons, List.mem_cons, not_or]
    exact ⟨Nat.ne_of_lt hlt, hnot⟩

theorem leave (h : Records ((v, n) :: scope) closed free ν) :
    Records scope (v :: closed) free ν := by
  have hnodup := h.nodup
  have hlt := h.lt
  rw [List.cons_append, List.map_cons, List.nodup_cons] at hnodup
  rw [List.cons_append, List.map_cons, List.forall_mem_cons] at hlt
  constructor
  case lt => exact hlt.2
  case nodup => exact hnodup.2
  case free_nodup => exact h.free_nodup
  case current =>
    intro w hw
    rw [List.mem_cons, not_or] at hw
    rw [h.current w hw.2, List.cons_append, List.lookup_cons, beq_false_of_ne hw.1]
  case stale =>
    intro w hw
    by_cases hmem : w ∈ closed
    · obtain ⟨m, hm, hnumber, hnot⟩ := h.stale w hmem
      exact ⟨m, hm, hnumber, fun hin => hnot (List.mem_cons_of_mem _ hin)⟩
    · -- the last lambda that binds the variable is the one that ends
      obtain rfl : w = v := (List.mem_cons.1 hw).resolve_right hmem
      exact ⟨n, hlt.1, by simp [h.current w hmem], hnodup.1⟩

theorem declare (h : Records scope closed free ν) (hv : ν.number? v = none) :
    Records scope closed ((v, ν.next) :: free) (ν.bind v) := by
  have hopen : v ∉ closed := by
    intro hmem
    obtain ⟨n, -, hn, -⟩ := h.stale v hmem
    simp [hv] at hn
  have hlookup : scope.lookup v = none ∧ free.lookup v = none := by
    rw [h.current v hopen, List.lookup_append, Option.or_eq_none_iff] at hv
    exact hv
  have hperm : (scope ++ (v, ν.next) :: free).Perm ((v, ν.next) :: (scope ++ free)) :=
    List.perm_middle
  have hmem : ∀ n, n ∈ (scope ++ (v, ν.next) :: free).map Prod.snd ↔
      n = ν.next ∨ n ∈ (scope ++ free).map Prod.snd := fun n => by
    rw [(hperm.map _).mem_iff, List.map_cons, List.mem_cons]
  constructor
  case lt =>
    intro n hn
    rw [next_bind]
    rcases (hmem n).1 hn with rfl | hn
    · exact Nat.lt_succ_self _
    · exact Nat.lt_succ_of_lt (h.lt n hn)
  case nodup =>
    rw [(hperm.map _).nodup_iff, List.map_cons, List.nodup_cons]
    exact ⟨fun hin => Nat.lt_irrefl _ (h.lt _ hin), h.nodup⟩
  case free_nodup =>
    rw [List.map_cons, List.nodup_cons]
    exact ⟨lookup_eq_none_iff_notMem.1 hlookup.2, h.free_nodup⟩
  case current =>
    intro w hw
    rw [number?_bind, List.lookup_append, List.lookup_cons]
    by_cases heq : w = v
    · simp [heq, hlookup.1]
    · rw [if_neg heq, beq_false_of_ne heq, h.current w hw, List.lookup_append]
  case stale =>
    intro w hw
    have hne : w ≠ v := by
      rintro rfl
      exact hopen hw
    obtain ⟨n, hlt, hn, hnot⟩ := h.stale w hw
    refine ⟨n, Nat.lt_succ_of_lt hlt, by rw [number?_bind, if_neg hne, hn], ?_⟩
    rw [hmem, not_or]
    exact ⟨Nat.ne_of_lt hlt, hnot⟩

end Records

end Numbering

namespace Term

variable {scope free : List (Var × Nat)} {closed : List Var} {ν : Numbering} {t : Term}

theorem records_allToSexpFrom {ts : List Term}
    (hts : ∀ t ∈ ts, ∀ closed free ν, Records scope closed free ν →
      Records scope (t.binders ++ closed) (t.declares ν ++ free) (t.toSexpFrom ν).2)
    (h : Records scope closed free ν) :
    Records scope (ts.flatMap binders ++ closed) (allDeclares ν ts ++ free)
      (allToSexpFrom ν ts).2 := by
  induction ts generalizing closed free ν with
  | nil => exact h
  | cons t ts ih =>
    rw [allToSexpFrom_cons, allDeclares, List.append_assoc]
    refine (ih (fun u hu => hts u (by simp [hu])) (hts t (by simp) _ _ _ h)).congr fun v => ?_
    simp only [List.flatMap_cons, List.mem_append]
    tauto

/-- **The table holds the last binders and the declared variables.** -/
theorem records_toSexpFrom (t : Term) (h : Records scope closed free ν) :
    Records scope (t.binders ++ closed) (t.declares ν ++ free) (t.toSexpFrom ν).2 := by
  induction t generalizing scope closed free ν with
  | const c => simpa [toSexpFrom, declares] using h
  | var v =>
    rw [toSexpFrom_var, declares]
    cases hv : ν.number? v with
    | some n => simpa using h
    | none => simpa using h.declare hv
  | lam v body ih =>
    rw [toSexpFrom_lam, declares]
    refine (ih (h.enter v)).leave.congr fun w => ?_
    by_cases hw : w = v <;> simp [hw]
  | lit p as ihp ihas =>
    have hlit : Records scope ((p :: as).flatMap binders ++ closed)
        (allDeclares ν (p :: as) ++ free) (allToSexpFrom ν (p :: as)).2 :=
      records_allToSexpFrom
        (List.forall_mem_cons.2 ⟨fun _ _ _ => ihp, fun a ha _ _ _ => ihas a ha⟩) h
    rwa [allToSexpFrom_cons, List.flatMap_cons, ← binders_lit] at hlit

/-! ### The numbers that are declared -/

theorem range_of_mem_allDeclares {ts : List Term}
    (hts : ∀ t ∈ ts, ∀ ν, ∀ p ∈ t.declares ν, ν.next ≤ p.2 ∧ p.2 < (t.toSexpFrom ν).2.next)
    (ν : Numbering) : ∀ p ∈ allDeclares ν ts,
      ν.next ≤ p.2 ∧ p.2 < (allToSexpFrom ν ts).2.next := by
  induction ts generalizing ν with
  | nil => simp [allDeclares]
  | cons t ts ih =>
    intro p hp
    rw [allDeclares, List.mem_append] at hp
    rw [allToSexpFrom_cons]
    rcases hp with hp | hp
    · have hrange := ih (fun u hu => hts u (by simp [hu])) _ p hp
      exact ⟨Nat.le_trans (next_le_toSexpFrom t ν) hrange.1, hrange.2⟩
    · have hrange := hts t (by simp) ν p hp
      exact ⟨hrange.1, Nat.lt_of_lt_of_le hrange.2 (next_le_allToSexpFrom ts _)⟩

/-- The numbers of the declared variables are given out in the term. -/
theorem range_of_mem_declares (t : Term) (ν : Numbering) :
    ∀ p ∈ t.declares ν, ν.next ≤ p.2 ∧ p.2 < (t.toSexpFrom ν).2.next := by
  induction t generalizing ν with
  | const c => simp [declares]
  | var v =>
    rw [toSexpFrom_var, declares]
    cases ν.number? v <;> simp
  | lam v body ih =>
    intro p hp
    have hrange := ih (ν.bind v) p hp
    rw [next_bind] at hrange
    rw [toSexpFrom_lam]
    exact ⟨Nat.le_of_succ_le hrange.1, hrange.2⟩
  | lit p as ihp ihas =>
    show ∀ q ∈ allDeclares ν (p :: as), ν.next ≤ q.2 ∧ q.2 < (allToSexpFrom ν (p :: as)).2.next
    exact range_of_mem_allDeclares (List.forall_mem_cons.2 ⟨ihp, ihas⟩) ν

/-- Of the numbers that are given out in a term, `free` has the ones of the declared variables. -/
structure Covers (free declared : List (Var × Nat)) (first last : Nat) : Prop where
  lookup : ∀ p ∈ declared, free.lookup p.1 = some p.2
  mem : ∀ n, first ≤ n → n < last → n ∈ free.map Prod.snd → n ∈ declared.map Prod.snd

/-- The terms of a list give out numbers one after the other. -/
theorem Covers.split {declared declared' : List (Var × Nat)} {first mid last : Nat}
    (h : Covers free (declared' ++ declared) first last) (hfirst : first ≤ mid)
    (hlast : mid ≤ last) (hdeclared : ∀ p ∈ declared, p.2 < mid)
    (hdeclared' : ∀ p ∈ declared', mid ≤ p.2) :
    Covers free declared first mid ∧ Covers free declared' mid last := by
  have hmem : ∀ n, first ≤ n → n < last → n ∈ free.map Prod.snd →
      n ∈ declared'.map Prod.snd ∨ n ∈ declared.map Prod.snd := by
    intro n hn hn' hfree
    have := h.mem n hn hn' hfree
    rwa [List.map_append, List.mem_append] at this
  refine ⟨⟨fun p hp => h.lookup p (by simp [hp]), fun n hn hn' hfree => ?_⟩,
    ⟨fun p hp => h.lookup p (by simp [hp]), fun n hn hn' hfree => ?_⟩⟩
  · refine (hmem n hn (Nat.lt_of_lt_of_le hn' hlast) hfree).resolve_left fun hin => ?_
    obtain ⟨p, hp, rfl⟩ := List.mem_map.1 hin
    exact absurd (hdeclared' p hp) (Nat.not_le_of_lt hn')
  · refine (hmem n (Nat.le_trans hfirst hn) hn' hfree).resolve_right fun hin => ?_
    obtain ⟨p, hp, rfl⟩ := List.mem_map.1 hin
    exact absurd (hdeclared p hp) (Nat.not_lt_of_le hn)

/-! ### Terms without stale leaves -/

theorem numberedIn_var {table : List (Var × Nat)} {v : Var} (h : Records scope closed table ν)
    (hv : v ∉ closed) (htable : ∀ p ∈ table, free.lookup p.1 = some p.2)
    (hcovers : ∀ p ∈ (var v).declares ν, free.lookup p.1 = some p.2) :
    (var v).NumberedIn free scope ((var v).toSexpFrom ν).1 := by
  have hnumber : ν.number? v = (scope.lookup v).or (table.lookup v) := by
    rw [h.current v hv, List.lookup_append]
  rw [toSexpFrom_var, NumberedIn]
  cases hscope : scope.lookup v with
  | some n =>
    rw [hscope, Option.some_or] at hnumber
    simp [hnumber]
  | none =>
    rw [hscope, Option.none_or] at hnumber
    cases hlookup : table.lookup v with
    | some n =>
      rw [hlookup] at hnumber
      exact ⟨n, htable (v, n) (mem_of_lookup_eq_some hlookup), .inl (by rw [hnumber])⟩
    | none =>
      rw [hlookup] at hnumber
      exact ⟨ν.next, hcovers (v, ν.next) (by simp [declares, hnumber]), .inr (by rw [hnumber])⟩

theorem allNumberedIn_allToSexpFrom {ts : List Term} {table : List (Var × Nat)}
    (hts : ∀ t ∈ ts, ∀ closed table ν, Records scope closed table ν →
      t.staleLeaves closed = [] → (∀ p ∈ table, free.lookup p.1 = some p.2) →
        Covers free (t.declares ν) ν.next (t.toSexpFrom ν).2.next →
          t.NumberedIn free scope (t.toSexpFrom ν).1)
    (h : Records scope closed table ν) (hstale : allStaleLeaves closed ts = [])
    (htable : ∀ p ∈ table, free.lookup p.1 = some p.2)
    (hcovers : Covers free (allDeclares ν ts) ν.next (allToSexpFrom ν ts).2.next) :
    AllNumberedIn free scope ts (allToSexpFrom ν ts).1 := by
  induction ts generalizing closed table ν with
  | nil => rfl
  | cons t ts ih =>
    rw [allStaleLeaves, List.append_eq_nil_iff] at hstale
    rw [allDeclares, allToSexpFrom_cons] at hcovers
    obtain ⟨hfirst, hrest⟩ := hcovers.split (next_le_toSexpFrom t ν) (next_le_allToSexpFrom ts _)
      (fun p hp => (range_of_mem_declares t ν p hp).2)
      (fun p hp => (range_of_mem_allDeclares (fun u _ => range_of_mem_declares u) _ p hp).1)
    rw [allToSexpFrom_cons]
    refine ⟨_, _, rfl, hts t (by simp) _ _ _ h hstale.1 htable hfirst, ?_⟩
    refine ih (fun u hu => hts u (by simp [hu])) (records_toSexpFrom t h) hstale.2 ?_ hrest
    intro p hp
    rcases List.mem_append.1 hp with hp | hp
    · exact hfirst.lookup p hp
    · exact htable p hp

/-- A term without stale leaves is printed with the numbers of its binders. -/
theorem numberedIn_toSexpFrom {table : List (Var × Nat)} (h : Records scope closed table ν)
    (hstale : t.staleLeaves closed = []) (htable : ∀ p ∈ table, free.lookup p.1 = some p.2)
    (hcovers : Covers free (t.declares ν) ν.next (t.toSexpFrom ν).2.next) :
    t.NumberedIn free scope (t.toSexpFrom ν).1 := by
  induction t generalizing scope closed table ν with
  | const c => rfl
  | var v =>
    have hv : v ∉ closed := by simpa [staleLeaves] using hstale
    exact numberedIn_var h hv htable hcovers.lookup
  | lam v body ih =>
    rw [staleLeaves] at hstale
    rw [declares, toSexpFrom_lam] at hcovers
    have hlt : ν.next < (body.toSexpFrom (ν.bind v)).2.next :=
      next_le_toSexpFrom body (ν.bind v)
    rw [toSexpFrom_lam]
    refine ⟨ν.next, _, rfl, ?_, ih (h.enter v) hstale htable ⟨hcovers.lookup, fun n hn => ?_⟩⟩
    · -- the number of the lambda is new, and its body declares later ones
      rw [List.map_append, List.mem_append, not_or]
      refine ⟨fun hmem => Nat.lt_irrefl _ (h.lt ν.next (by simp_all)), fun hmem => ?_⟩
      obtain ⟨p, hp, hnext⟩ := List.mem_map.1 (hcovers.mem ν.next (Nat.le_refl _) hlt hmem)
      have hrange := (range_of_mem_declares body (ν.bind v) p hp).1
      rw [hnext, next_bind] at hrange
      exact Nat.lt_irrefl _ hrange
    · exact hcovers.mem n (Nat.le_of_succ_le hn)
  | lit p as ihp ihas =>
    have hall : AllNumberedIn free scope (p :: as) (allToSexpFrom ν (p :: as)).1 :=
      allNumberedIn_allToSexpFrom
        (List.forall_mem_cons.2 ⟨fun _ _ _ => ihp, fun a ha _ _ _ => ihas a ha⟩) h hstale htable
        hcovers
    obtain ⟨q, es, heq, hp, has⟩ := hall
    exact ⟨q, es, by rw [← heq]; rfl, hp, has⟩

/-! ### Terms with stale leaves -/

/-- The closed variables have numbers that are none of free variables. -/
def ClosedApart (free : List (Var × Nat)) (closed : List Var) (ν : Numbering) : Prop :=
  ∀ v ∈ closed, ∃ n, ν.number? v = some n ∧ n ∉ free.map Prod.snd

theorem name_ne_declaration (v : Var) (m n : Nat) : name m ≠ v.declaration n := by
  intro h
  have hsplit := splitAtFirst_name m
  rw [h, Var.splitAtFirst_declaration] at hsplit
  cases hsplit

theorem declaration_injective {v : Var} {m n : Nat} (h : v.declaration m = v.declaration n) :
    m = n := by
  have hsplit := Var.splitAtFirst_declaration v m
  rw [h, Var.splitAtFirst_declaration, Option.some.injEq, Prod.mk.injEq] at hsplit
  exact name_injective (String.toList_inj.1 hsplit.1.symm)

/-- A stale leaf carries neither the number of a lambda around it nor one of a free variable. -/
theorem not_numberedIn_of_mem_closed {table : List (Var × Nat)} {v : Var}
    (h : Records scope closed table ν) (hclosed : ClosedApart free closed ν) (hv : v ∈ closed) :
    ¬(var v).NumberedIn free scope ((var v).toSexpFrom ν).1 := by
  obtain ⟨n, -, hn, hnot⟩ := h.stale v hv
  obtain ⟨n', hn', hfree⟩ := hclosed v hv
  obtain rfl : n = n' := Option.some.inj (hn.symm.trans hn')
  rw [toSexpFrom_var, hn, NumberedIn]
  cases hscope : scope.lookup v with
  | some m =>
    intro hname
    obtain rfl : n = m := name_injective (Sexp.atom.inj hname)
    refine hnot ?_
    rw [List.map_append, List.mem_append]
    exact .inl (value_mem_of_lookup_eq_some hscope)
  | none =>
    rintro ⟨m, hm, hname | hdeclaration⟩
    · obtain rfl : n = m := name_injective (Sexp.atom.inj hname)
      exact hfree (value_mem_of_lookup_eq_some hm)
    · exact name_ne_declaration v n m (Sexp.atom.inj hdeclaration)

theorem ClosedApart.var (hclosed : ClosedApart free closed ν) (v : Var) :
    ClosedApart free closed ((Term.var v).toSexpFrom ν).2 := by
  intro w hw
  obtain ⟨n, hn, hfree⟩ := hclosed w hw
  rw [toSexpFrom_var]
  cases hv : ν.number? v with
  | some m => exact ⟨n, hn, hfree⟩
  | none =>
    have hne : w ≠ v := by
      rintro rfl
      simp [hn] at hv
    exact ⟨n, by rw [number?_bind, if_neg hne, hn], hfree⟩

theorem ClosedApart.enter (hclosed : ClosedApart free closed ν) (v : Var) :
    ClosedApart free (closed.filter (· ≠ v)) (ν.bind v) := by
  intro w hw
  have hmem : w ∈ closed ∧ w ≠ v := by simpa using hw
  obtain ⟨n, hn, hfree⟩ := hclosed w hmem.1
  exact ⟨n, by rw [number?_bind, if_neg hmem.2, hn], hfree⟩

/-- Behind a lambda its argument has a number that a lambda in its body gave it, or its own. -/
theorem ClosedApart.leave {v : Var} {n : Nat} {table : List (Var × Nat)}
    (hclosed : ClosedApart free closed ν) (h : Records ((v, n) :: scope) closed table ν)
    (hn : n ∉ free.map Prod.snd) : ClosedApart free (v :: closed) ν := by
  intro w hw
  by_cases hmem : w ∈ closed
  · exact hclosed w hmem
  · obtain rfl : w = v := (List.mem_cons.1 hw).resolve_right hmem
    exact ⟨n, by simp [h.current w hmem], hn⟩

theorem ClosedApart.congr {closed' : List Var} (h : ClosedApart free closed ν)
    (hclosed : ∀ v ∈ closed', v ∈ closed) : ClosedApart free closed' ν :=
  fun v hv => h v (hclosed v hv)

theorem allStaleLeaves_eq_nil_of_allNumberedIn {ts : List Term} {table : List (Var × Nat)}
    (hts : ∀ t ∈ ts, ∀ closed table ν, Records scope closed table ν → ClosedApart free closed ν →
      t.NumberedIn free scope (t.toSexpFrom ν).1 →
        t.staleLeaves closed = [] ∧ ClosedApart free (t.binders ++ closed) (t.toSexpFrom ν).2)
    (h : Records scope closed table ν) (hclosed : ClosedApart free closed ν)
    (hnumbered : AllNumberedIn free scope ts (allToSexpFrom ν ts).1) :
    allStaleLeaves closed ts = [] ∧
      ClosedApart free (ts.flatMap binders ++ closed) (allToSexpFrom ν ts).2 := by
  induction ts generalizing closed table ν with
  | nil => exact ⟨rfl, hclosed⟩
  | cons t ts ih =>
    rw [allToSexpFrom_cons] at hnumbered
    obtain ⟨q, rest, heq, ht, hrest⟩ := hnumbered
    obtain ⟨rfl, rfl⟩ := List.cons.inj heq
    obtain ⟨hfirst, hclosed'⟩ := hts t (by simp) _ _ _ h hclosed ht
    obtain ⟨hstale, hclosed''⟩ :=
      ih (fun u hu => hts u (by simp [hu])) (records_toSexpFrom t h) hclosed' hrest
    rw [allStaleLeaves, hfirst, hstale, allToSexpFrom_cons]
    refine ⟨rfl, hclosed''.congr fun v hv => ?_⟩
    simp only [List.flatMap_cons, List.mem_append] at hv ⊢
    tauto

/-- Where the printed numbers are those of the binders, no leaf is stale. -/
theorem staleLeaves_eq_nil_of_numberedIn {table : List (Var × Nat)}
    (h : Records scope closed table ν) (hclosed : ClosedApart free closed ν)
    (hnumbered : t.NumberedIn free scope (t.toSexpFrom ν).1) :
    t.staleLeaves closed = [] ∧ ClosedApart free (t.binders ++ closed) (t.toSexpFrom ν).2 := by
  induction t generalizing scope closed table ν with
  | const c => exact ⟨rfl, hclosed⟩
  | var v =>
    have hv : v ∉ closed := fun hv => not_numberedIn_of_mem_closed h hclosed hv hnumbered
    exact ⟨by rw [staleLeaves, if_neg hv], hclosed.var v⟩
  | lam v body ih =>
    rw [toSexpFrom_lam] at hnumbered
    obtain ⟨n, b, heq, hn, hbody⟩ := hnumbered
    simp only [Sexp.list.injEq, List.cons.injEq, Sexp.atom.injEq, and_true, true_and] at heq
    obtain ⟨hnext, rfl⟩ := heq
    obtain rfl : ν.next = n := declaration_injective hnext
    rw [List.map_append, List.mem_append, not_or] at hn
    obtain ⟨hstale, hclosed'⟩ := ih (h.enter v) (hclosed.enter v) hbody
    rw [toSexpFrom_lam]
    refine ⟨hstale, (hclosed'.leave (records_toSexpFrom body (h.enter v)) hn.2).congr ?_⟩
    intro w hw
    by_cases heq : w = v
    · simp [heq]
    · simpa [heq] using hw
  | lit p as ihp ihas =>
    obtain ⟨q, es, heq, hp, has⟩ := hnumbered
    have hall : AllNumberedIn free scope (p :: as) (allToSexpFrom ν (p :: as)).1 :=
      ⟨q, es, Sexp.list.inj heq, hp, has⟩
    have hlit : allStaleLeaves closed (p :: as) = [] ∧ ClosedApart free
        ((p :: as).flatMap binders ++ closed) (allToSexpFrom ν (p :: as)).2 :=
      allStaleLeaves_eq_nil_of_allNumberedIn
        (List.forall_mem_cons.2 ⟨fun _ _ _ => ihp, fun a ha _ _ _ => ihas a ha⟩) h hclosed hall
    rwa [allToSexpFrom_cons, List.flatMap_cons, ← binders_lit] at hlit

/-! ### Hygienic terms -/

theorem allStaleLeaves_eq_nil {ts : List Term} (hts : ∀ t ∈ ts, ∀ closed,
      (∀ v ∈ closed, v ∉ t.freeLeaves) → t.staleLeaves closed = [])
    (hclosed : ∀ v ∈ closed, v ∉ ts.flatMap freeLeaves)
    (hbinders : ∀ v ∈ ts.flatMap binders, v ∉ ts.flatMap freeLeaves) :
    allStaleLeaves closed ts = [] := by
  induction ts generalizing closed with
  | nil => rfl
  | cons t ts ih =>
    simp only [List.flatMap_cons, List.mem_append, not_or] at hclosed hbinders
    rw [allStaleLeaves, hts t (by simp) closed fun v hv => (hclosed v hv).1, List.nil_append]
    refine ih (fun u hu => hts u (by simp [hu])) (fun v hv => ?_) fun v hv =>
      (hbinders v (.inr hv)).2
    rcases List.mem_append.1 hv with hv | hv
    · exact (hbinders v (.inl hv)).2
    · exact (hclosed v hv).2

theorem Hygienic.staleLeaves_eq_nil (ht : t.Hygienic) (hclosed : ∀ v ∈ closed, v ∉ t.freeLeaves) :
    t.staleLeaves closed = [] := by
  induction t generalizing closed with
  | const c => rfl
  | var v =>
    rw [staleLeaves, if_neg]
    exact fun hv => hclosed v hv (by simp)
  | lam v body ih =>
    refine ih ht.of_lam fun w hw hleaf => ?_
    have hmem : w ∈ closed ∧ w ≠ v := by simpa using hw
    exact hclosed w hmem.1 (by simp [hleaf, hmem.2])
  | lit p as ihp ihas =>
    have hbinders := ht.2
    rw [binders_lit, freeLeaves_lit, ← List.flatMap_cons, ← List.flatMap_cons] at hbinders
    rw [freeLeaves_lit, ← List.flatMap_cons] at hclosed
    show allStaleLeaves closed (p :: as) = []
    refine allStaleLeaves_eq_nil (List.forall_mem_cons.2 ⟨?_, ?_⟩) hclosed hbinders
    · exact fun _ => ihp (ht.of_lit (by simp))
    · exact fun a ha _ => ihas a ha (ht.of_lit (by simp [ha]))

/-! ### The printed text -/

/-- **A term is printed with the numbers of its binders exactly if it has no stale leaf.** -/
theorem numberedByBinder_toSexp_iff (t : Term) :
    t.NumberedByBinder t.toSexp ↔ t.staleLeaves [] = [] := by
  constructor
  · rintro ⟨free, -, hnumbered⟩
    exact (staleLeaves_eq_nil_of_numberedIn .empty (by simp [ClosedApart]) hnumbered).1
  · intro hstale
    -- the declared variables are the free ones
    have hrecords := records_toSexpFrom t .empty
    simp only [List.append_nil] at hrecords
    have hnodup : ((t.declares .empty).map Prod.snd).Nodup := hrecords.nodup
    refine ⟨t.declares .empty, hnodup, numberedIn_toSexpFrom .empty hstale (by simp) ⟨?_, ?_⟩⟩
    · exact fun p hp => lookup_eq_some_of_mem hrecords.free_nodup hp
    · exact fun n _ _ hn => hn

end Term

end LogicalForms
