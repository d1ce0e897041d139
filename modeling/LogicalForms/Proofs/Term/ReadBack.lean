import LogicalForms.Proofs.Term.Alpha
import LogicalForms.Proofs.Term.Printed
import LogicalForms.Proofs.Term.StaleNumbers

/-!
# Reading back printed terms

For a legible term the stale leaves decide what becomes of its text
(`Term.readFrom_render_of_legible`): without any the text is read back as an alpha-equivalent term,
and otherwise it is not read at all, since a stale leaf is a name without a type that no lambda
around it binds.

Behind a printed term the reader knows the names of the numbers that the printer has recorded, and
no others (`TermReader.names`), so its scope and its supply are functions of the printer's table.
-/

namespace LogicalForms

open Text Sexp LogicalForms.Numbering Pairing

namespace TermReader

/-- The variable that the reader makes for a variable with a number, when it gives out identities
from `base` on. -/
def remade (base : Nat) (p : Var × Nat) : Var := ⟨base + p.2, p.1.ty⟩

/-- Variables with numbers, as the reader knows them. -/
def names (base : Nat) (ps : List (Var × Nat)) : List (String × Var) :=
  ps.map fun p => (name p.2, remade base p)

/-- Variables with numbers, each with what the reader makes of it. -/
def remakes (base : Nat) (ps : List (Var × Nat)) : Pairing := ps.map fun p => (p.1, remade base p)

/-- The supply of the reader where the printer has declared these free variables. -/
def supply (base : Nat) (free : List (Var × Nat)) (ν : Numbering) : Supply :=
  ⟨names base free, base + ν.next⟩

section Names

variable {base n : Nat} {scope free ps : List (Var × Nat)} {closed : List Var} {ν : Numbering}
  {v : Var}

theorem lookup_names (hps : (ps.map Prod.snd).Nodup) (h : (v, n) ∈ ps) :
    (names base ps).lookup (name n) = some (remade base (v, n)) := by
  have hkeys : (names base ps).map Prod.fst = (ps.map Prod.snd).map name := by
    simp [names]
  refine lookup_eq_some_of_mem ?_ (List.mem_map.2 ⟨(v, n), h, rfl⟩)
  rw [hkeys]
  exact hps.map fun _ _ => name_injective

theorem lookup_names_eq_none (h : n ∉ ps.map Prod.snd) :
    (names base ps).lookup (name n) = none := by
  rw [lookup_eq_none_iff_notMem]
  intro hmem
  obtain ⟨_, hq, hname⟩ := List.mem_map.1 hmem
  obtain ⟨p, hp, rfl⟩ := List.mem_map.1 hq
  exact h (List.mem_map.2 ⟨p, hp, name_injective hname⟩)

theorem resolve_names (base : Nat) (scope free : List (Var × Nat)) (ν : Numbering) (k : String) :
    resolve (names base scope) (supply base free ν) k = (names base (scope ++ free)).lookup k := by
  rw [resolve, supply, names, names, names, List.map_append, List.lookup_append]

/-- The number that the printer has recorded of a variable is a name that the reader knows. -/
theorem resolve_of_records (h : Records scope closed free ν) (hv : v ∉ closed)
    (hn : ν.number? v = some n) :
    resolve (names base scope) (supply base free ν) (name n) = some (remade base (v, n)) := by
  rw [resolve_names]
  rw [h.current v hv] at hn
  exact lookup_names h.nodup (mem_of_lookup_eq_some hn)

theorem corresponds_of_lookup {φ : Pairing} (hnodup : ((scope ++ free).map Prod.snd).Nodup)
    (hlookup : (scope ++ free).lookup v = some n)
    (hφ : ∀ p ∈ free, (p.1, remade base p) ∈ φ) :
    Corresponds φ (remakes base scope) v (remade base (v, n)) := by
  induction scope with
  | nil => exact hφ _ (mem_of_lookup_eq_some hlookup)
  | cons p scope ih =>
    obtain ⟨x, k⟩ := p
    rw [List.cons_append, List.map_cons, List.nodup_cons] at hnodup
    rw [List.cons_append, List.lookup_cons] at hlookup
    by_cases hv : v = x
    · obtain rfl : k = n := by simpa [hv] using hlookup
      exact .inl ⟨hv, by rw [hv]⟩
    · rw [beq_false_of_ne hv] at hlookup
      -- another variable has another number, and is made another variable
      have hkn : n ≠ k := by
        rintro rfl
        exact hnodup.1 (value_mem_of_lookup_eq_some hlookup)
      exact .inr ⟨hv, fun h => hkn (by simpa [remade] using congrArg Var.id h),
        ih hnodup.2 hlookup⟩

end Names

/-! ### Terms without stale leaves -/

section ReadBack

variable {base : Nat} {scope free : List (Var × Nat)} {closed : List Var} {ν : Numbering}
  {t body : Term} {ts : List Term} {v : Var}

/-- What is printed for the term is read as a term that differs from it in its variables only. -/
def ReadsBack (base : Nat) (scope free : List (Var × Nat)) (ν : Numbering) (t : Term) : Prop :=
  ∃ u, (term (names base scope) (t.toSexpFrom ν).1).run (supply base free ν) =
      .ok (u, supply base (t.declares ν ++ free) (t.toSexpFrom ν).2) ∧
    ∀ φ : Pairing, (∀ p ∈ t.declares ν ++ free, (p.1, remade base p) ∈ φ) →
      Term.AlphaUnder φ (remakes base scope) t u

/-- The same for terms one after the other. -/
def AllReadBack (base : Nat) (scope free : List (Var × Nat)) (ν : Numbering) (ts : List Term) :
    Prop :=
  ∃ us, (terms (names base scope) (Term.allToSexpFrom ν ts).1).run (supply base free ν) =
      .ok (us, supply base (Term.allDeclares ν ts ++ free) (Term.allToSexpFrom ν ts).2) ∧
    ∀ φ : Pairing, (∀ p ∈ Term.allDeclares ν ts ++ free, (p.1, remade base p) ∈ φ) →
      List.Forall₂ (Term.AlphaUnder φ (remakes base scope)) ts us

theorem readsBack_const {c : Constant} (hc : c.Legible) :
    ReadsBack base scope free ν (.const c) := by
  refine ⟨.const c, ?_, fun φ _ => rfl⟩
  rw [Term.toSexpFrom]
  exact run_term_const hc

theorem readsBack_var (hv : v.ty.Legible) (h : Records scope closed free ν) (hopen : v ∉ closed) :
    ReadsBack base scope free ν (.var v) := by
  have hrecords := Term.records_toSexpFrom (.var v) h
  rw [Term.binders_var, List.nil_append] at hrecords
  rw [ReadsBack]
  rw [Term.toSexpFrom_var] at hrecords ⊢
  cases hnumber : ν.number? v with
  | some n =>
    rw [hnumber] at hrecords
    refine ⟨.var (remade base (v, n)), ?_, fun φ hφ => ?_⟩
    · rw [Term.declares, hnumber]
      exact run_term_name (resolve_of_records h hopen hnumber)
    · rw [h.current v hopen] at hnumber
      exact corresponds_of_lookup h.nodup hnumber fun p hp => hφ p (by simp [hp])
  | none =>
    -- the leaf is the first one of a free variable, which the reader makes now
    have hdeclare := h.declare hnumber
    have hlookup : (scope ++ (v, ν.next) :: free).lookup v = some ν.next := by
      rw [← hdeclare.current v hopen, number?_bind, if_pos rfl]
    have hnew : ν.next ∉ (scope ++ free).map Prod.snd := fun hmem =>
      Nat.lt_irrefl _ (h.lt _ hmem)
    have hunknown : resolve (names base scope) (supply base free ν) (name ν.next) = none := by
      rw [resolve_names]
      exact lookup_names_eq_none hnew
    refine ⟨.var (remade base (v, ν.next)), ?_, fun φ hφ => ?_⟩
    · rw [Term.declares, hnumber]
      exact run_term_declaration hv hunknown
    · rw [Term.declares, hnumber] at hφ
      exact corresponds_of_lookup hdeclare.nodup hlookup hφ

theorem ReadsBack.lam (hv : v.ty.Legible)
    (h : ReadsBack base ((v, ν.next) :: scope) free (ν.bind v) body) :
    ReadsBack base scope free ν (.lam v body) := by
  obtain ⟨u, hrun, halpha⟩ := h
  refine ⟨.lam (remade base (v, ν.next)) u, ?_, fun φ hφ => ⟨rfl, halpha φ hφ⟩⟩
  rw [Term.toSexpFrom_lam, Term.declares, run_term_lambda hv]
  change ((term (names base ((v, ν.next) :: scope)) _).run (supply base free (ν.bind v))).map _ = _
  rw [hrun]
  rfl

theorem ReadsBack.cons (ht : ReadsBack base scope free ν t)
    (hts : AllReadBack base scope (t.declares ν ++ free) (t.toSexpFrom ν).2 ts) :
    AllReadBack base scope free ν (t :: ts) := by
  obtain ⟨u, hrun, halpha⟩ := ht
  obtain ⟨us, hruns, halphas⟩ := hts
  refine ⟨u :: us, ?_, fun φ hφ => ?_⟩
  · rw [Term.allToSexpFrom_cons, Term.allDeclares, run_terms_cons, hrun, List.append_assoc]
    change ((terms (names base scope) _).run (supply base _ _)).map _ = _
    rw [hruns]
    rfl
  · rw [Term.allDeclares, List.append_assoc] at hφ
    exact .cons (halpha φ fun p hp => hφ p (List.mem_append_right _ hp)) (halphas φ hφ)

theorem allReadBack (hts : ∀ t ∈ ts, ∀ closed free ν, Records scope closed free ν →
      t.staleLeaves closed = [] → ReadsBack base scope free ν t)
    (h : Records scope closed free ν) (hstale : Term.allStaleLeaves closed ts = []) :
    AllReadBack base scope free ν ts := by
  induction ts generalizing closed free ν with
  | nil => exact ⟨[], rfl, fun _ _ => .nil⟩
  | cons t ts ih =>
    rw [Term.allStaleLeaves, List.append_eq_nil_iff] at hstale
    exact (hts t (by simp) _ _ _ h hstale.1).cons
      (ih (fun u hu => hts u (by simp [hu])) (Term.records_toSexpFrom t h) hstale.2)

theorem ReadsBack.lit {p : Term} {as : List Term} (hne : as ≠ [])
    (hp : ReadsBack base scope free ν p)
    (has : AllReadBack base scope (p.declares ν ++ free) (p.toSexpFrom ν).2 as) :
    ReadsBack base scope free ν (.lit p as) := by
  obtain ⟨q, hrun, halpha⟩ := hp
  obtain ⟨bs, hruns, halphas⟩ := has
  refine ⟨.lit q bs, ?_, fun φ hφ => ?_⟩
  · rw [Term.toSexpFrom_lit, Term.declares, List.append_assoc,
      run_term_literal (Term.toSexpFrom_ne_lambda _ _) (Term.allToSexpFrom_ne_nil hne _), hrun]
    change ((terms (names base scope) _).run (supply base _ _)).map _ = _
    rw [hruns]
    rfl
  · rw [Term.declares, List.append_assoc] at hφ
    refine ⟨halpha φ fun p hp => hφ p (List.mem_append_right _ hp), ?_⟩
    exact Term.allAlphaUnder_iff.2 (halphas φ hφ)

/-- **The text of a term without stale leaves is read back.** -/
theorem readsBack (ht : t.Legible) (h : Records scope closed free ν)
    (hstale : t.staleLeaves closed = []) : ReadsBack base scope free ν t := by
  induction t generalizing scope closed free ν with
  | const c => exact readsBack_const ht
  | var v => exact readsBack_var ht h (by simpa [Term.staleLeaves] using hstale)
  | lam v body ih =>
    rw [Term.Legible] at ht
    exact (ih ht.2 (h.enter v) hstale).lam ht.1
  | lit p as ihp ihas =>
    rw [Term.legible_lit] at ht
    rw [Term.staleLeaves, List.append_eq_nil_iff] at hstale
    exact .lit ht.2.1 (ihp ht.1 h hstale.1) (allReadBack
      (fun a ha _ _ _ => ihas a ha (ht.2.2 a ha)) (Term.records_toSexpFrom p h) hstale.2)

/-! ### Terms with stale leaves -/

/-- What is printed for the term refers to a variable that the reader does not know. -/
def Unreadable (base : Nat) (scope free : List (Var × Nat)) (ν : Numbering) (t : Term) : Prop :=
  ∃ n, (term (names base scope) (t.toSexpFrom ν).1).run (supply base free ν) =
    .error (.unbound (name n))

/-- The same for terms one after the other. -/
def AllUnreadable (base : Nat) (scope free : List (Var × Nat)) (ν : Numbering) (ts : List Term) :
    Prop :=
  ∃ n, (terms (names base scope) (Term.allToSexpFrom ν ts).1).run (supply base free ν) =
    .error (.unbound (name n))

/-- The number of a closed lambda is a name that the reader does not know any more. -/
theorem unreadable_var (h : Records scope closed free ν) (hv : v ∈ closed) :
    Unreadable base scope free ν (.var v) := by
  obtain ⟨n, -, hnumber, hnot⟩ := h.stale v hv
  refine ⟨n, ?_⟩
  rw [Term.toSexpFrom_var, hnumber]
  refine run_term_name_of_unknown ?_
  rw [resolve_names]
  exact lookup_names_eq_none hnot

theorem Unreadable.lam (hv : v.ty.Legible)
    (h : Unreadable base ((v, ν.next) :: scope) free (ν.bind v) body) :
    Unreadable base scope free ν (.lam v body) := by
  obtain ⟨n, hrun⟩ := h
  refine ⟨n, ?_⟩
  rw [Term.toSexpFrom_lam, run_term_lambda hv]
  change ((term (names base ((v, ν.next) :: scope)) _).run (supply base free (ν.bind v))).map _ = _
  rw [hrun]
  rfl

/-- Of a term and of terms behind it, the first one that is not read gives the error. -/
theorem exists_error_of_unreadable {β : Type} (f : Term × Supply → List Term × Supply → β)
    (h : Unreadable base scope free ν t ∨ ReadsBack base scope free ν t ∧
      AllUnreadable base scope (t.declares ν ++ free) (t.toSexpFrom ν).2 ts) :
    ∃ n, ((term (names base scope) (t.toSexpFrom ν).1).run (supply base free ν) >>= fun p =>
      ((terms (names base scope) (Term.allToSexpFrom (t.toSexpFrom ν).2 ts).1).run p.2).map
        (f p)) = .error (.unbound (name n)) := by
  rcases h with ⟨n, hrun⟩ | ⟨⟨u, hrun, -⟩, ⟨n, hruns⟩⟩
  · exact ⟨n, by rw [hrun]; rfl⟩
  · refine ⟨n, ?_⟩
    rw [hrun]
    change ((terms (names base scope) _).run (supply base _ _)).map _ = _
    rw [hruns]
    rfl

theorem allUnreadable (hts : ∀ t ∈ ts, t.Legible) (hall : ∀ t ∈ ts, ∀ closed free ν,
      Records scope closed free ν → t.staleLeaves closed ≠ [] → Unreadable base scope free ν t)
    (h : Records scope closed free ν) (hstale : Term.allStaleLeaves closed ts ≠ []) :
    AllUnreadable base scope free ν ts := by
  induction ts generalizing closed free ν with
  | nil => exact absurd rfl hstale
  | cons t ts ih =>
    rw [Term.allStaleLeaves, ne_eq, List.append_eq_nil_iff, not_and] at hstale
    rw [AllUnreadable, Term.allToSexpFrom_cons]
    simp only [run_terms_cons]
    refine exists_error_of_unreadable _ ?_
    by_cases ht : t.staleLeaves closed = []
    · refine .inr ⟨readsBack (hts t (by simp)) h ht, ?_⟩
      exact ih (fun u hu => hts u (by simp [hu])) (fun u hu => hall u (by simp [hu]))
        (Term.records_toSexpFrom t h) (hstale ht)
    · exact .inl (hall t (by simp) _ _ _ h ht)

/-- **The text of a term with a stale leaf is not read.** -/
theorem unreadable (ht : t.Legible) (h : Records scope closed free ν)
    (hstale : t.staleLeaves closed ≠ []) : Unreadable base scope free ν t := by
  induction t generalizing scope closed free ν with
  | const c => exact absurd rfl hstale
  | var v => exact unreadable_var h (by simpa [Term.staleLeaves] using hstale)
  | lam v body ih =>
    rw [Term.Legible] at ht
    exact (ih ht.2 (h.enter v) hstale).lam ht.1
  | lit p as ihp ihas =>
    rw [Term.legible_lit] at ht
    rw [Term.staleLeaves, ne_eq, List.append_eq_nil_iff, not_and] at hstale
    rw [Unreadable, Term.toSexpFrom_lit]
    simp only [run_term_literal (Term.toSexpFrom_ne_lambda p ν)
      (Term.allToSexpFrom_ne_nil ht.2.1 _)]
    refine exists_error_of_unreadable _ ?_
    by_cases hp : p.staleLeaves closed = []
    · exact .inr ⟨readsBack ht.1 h hp, allUnreadable ht.2.2
        (fun a ha _ _ _ => ihas a ha (ht.2.2 a ha)) (Term.records_toSexpFrom p h) (hstale hp)⟩
    · exact .inl (ihp ht.1 h hp)

end ReadBack

/-- The reader makes different variables, of the same types, for the declared ones. -/
theorem matches_remakes {base : Nat} {scope free : List (Var × Nat)} {closed : List Var}
    {ν : Numbering} (h : Records scope closed free ν) : (remakes base free).Matches := by
  have hnodup := h.nodup
  rw [List.map_append, List.nodup_append] at hnodup
  constructor
  case fst_eq_iff =>
    intro p hp q hq
    obtain ⟨a, ha, rfl⟩ := List.mem_map.1 hp
    obtain ⟨b, hb, rfl⟩ := List.mem_map.1 hq
    constructor
    · intro heq
      rw [List.inj_on_of_nodup_map h.free_nodup ha hb heq]
    · intro heq
      have hnumber : a.2 = b.2 := by simpa [remade] using congrArg Var.id heq
      rw [List.inj_on_of_nodup_map hnodup.2.1 ha hb hnumber]
  case ty_eq =>
    intro p hp
    obtain ⟨a, -, rfl⟩ := List.mem_map.1 hp
    rfl

end TermReader

namespace Term

open TermReader

variable {t : Term}

/-- **What becomes of the text of a legible term.** -/
theorem readFrom_render_of_legible (ht : t.Legible) (next : Nat) :
    if t.staleLeaves [] = [] then ∃ u n, readFrom next t.render = .ok (u, n) ∧ t.AlphaEq u
    else ∃ n, readFrom next t.render = .error (.unbound (name n)) := by
  have hread : Sexp.readAll t.render.toList = .ok [t.toSexp] :=
    Sexp.readAll_render (ht.wellFormed_toSexpFrom .empty)
  split_ifs with hstale
  · have hback : ReadsBack next [] [] .empty t := readsBack ht .empty hstale
    obtain ⟨u, hrun, halpha⟩ := hback
    have hmatches : (remakes next (t.declares .empty ++ [])).Matches :=
      matches_remakes (records_toSexpFrom t .empty)
    refine ⟨u, _, readFrom_eq_ok_iff.2 ⟨_, _, hread, hrun, rfl⟩, AlphaUnder.alphaEq hmatches ?_⟩
    exact halpha _ fun p hp => List.mem_map.2 ⟨p, hp, rfl⟩
  · have hunreadable : Unreadable next [] [] .empty t := unreadable ht .empty hstale
    obtain ⟨n, hrun⟩ := hunreadable
    exact ⟨n, readFrom_eq_error hread hrun⟩

/-- **What the numbers of a printed term tell.**  The text numbers the variables by their binders
exactly if no leaf carries the number of a closed lambda, as in every hygienic term.  If the term is
legible, its text is read back as an alpha-equivalent term in this case, and not read at all in the
other one. -/
theorem render_by_binder (t : Term) :
    (t.NumberedByBinder t.toSexp ↔ t.staleLeaves [] = []) ∧
      (t.Hygienic → t.staleLeaves [] = []) ∧
        (t.Legible → ∀ next,
          if t.staleLeaves [] = [] then ∃ u n, readFrom next t.render = .ok (u, n) ∧ t.AlphaEq u
          else ∃ n, readFrom next t.render = .error (.unbound (name n))) :=
  ⟨numberedByBinder_toSexp_iff t, fun h => h.staleLeaves_eq_nil (by simp),
    fun h next => readFrom_render_of_legible h next⟩

/-- A lambda that stands for its argument. -/
def identity : Term :=
  let x : Var := ⟨0, .atom "e"⟩
  .lam x (.var x)

/-- Two lambdas side by side that bind the same variable. -/
def siblings : Term := .lit identity [identity]

theorem legible_siblings : siblings.Legible := by
  have hty : (Ty.atom "e").Legible := ⟨by decide +kernel, List.all_eq_true.1 (by decide +kernel)⟩
  simp [siblings, identity, Legible, hty]

theorem render_by_binder_siblings :
    siblings.NumberedByBinder siblings.toSexp ∧
      (∃ u n, readFrom 0 siblings.render = .ok (u, n) ∧ siblings.AlphaEq u) ∧
        identity.Hygienic ∧ identity.staleLeaves [] = [] := by
  have hstale : siblings.staleLeaves [] = [] := by decide
  have hread := (render_by_binder siblings).2.2 legible_siblings 0
  rw [if_pos hstale] at hread
  have hygienic : identity.Hygienic := ⟨by decide, by decide⟩
  exact ⟨(render_by_binder siblings).1.2 hstale, hread, hygienic,
    (render_by_binder identity).2.1 hygienic⟩

/-- A lambda around another one that binds the same variable, with a leaf behind the inner one.  The
leaf is printed with the number of the inner lambda. -/
def staleLeaf : Term :=
  let x : Var := ⟨0, .atom "e"⟩
  .lam x (.lit (.const ⟨"p", .atom "t"⟩)
    [.lam x (.lit (.const ⟨"q", .atom "t"⟩) [.var x]), .var x])

theorem render_staleLeaf :
    staleLeaf.render = "(lambda $0:e (p:t (lambda $1:e (q:t $1)) $1))" ∧
      staleLeaf.Legible ∧ ¬staleLeaf.NumberedByBinder staleLeaf.toSexp ∧
        readFrom 0 staleLeaf.render = .error (.unbound "$1") := by
  have hty : (Ty.atom "e").Legible := ⟨by decide +kernel, List.all_eq_true.1 (by decide +kernel)⟩
  have hp : (Constant.mk "p" (.atom "t")).Legible :=
    ⟨by decide +kernel, List.all_eq_true.1 (by decide +kernel)⟩
  have hq : (Constant.mk "q" (.atom "t")).Legible :=
    ⟨by decide +kernel, List.all_eq_true.1 (by decide +kernel)⟩
  refine ⟨by decide +kernel, by simp [staleLeaf, Legible, AllLegible, hty, hp, hq], ?_,
    by decide +kernel⟩
  rw [numberedByBinder_toSexp_iff]
  decide

end Term

end LogicalForms
