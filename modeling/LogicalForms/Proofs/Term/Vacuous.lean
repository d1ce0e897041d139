import LogicalForms.Proofs.Term.Scoping

/-!
# Vacuous variables

The pass of `Term.vacuous` meets binders and leaves in reading order (`Term.visits`).  A variable is
vacuous when the pass meets no leaf of it behind its last binder (`Term.mem_vacuousAfter_iff`).  A
leaf in front of that binder does not count, so a variable with several binders may be mentioned and
vacuous.  In a hygienic term all leaves of a variable are behind its only binder, and the vacuous
variables are the ones that are bound and not mentioned.

Simplification decides at each lambda by itself.  Both come to the same for hygienic terms: it drops
the lambdas of the vacuous variables (`Term.prune_eq_without`).  What it leaves has no
vacuous variables, hygienic or not.
-/

namespace LogicalForms

namespace Term

/-- What the pass over a term meets. -/
inductive Visit where
  /-- The lambda that binds a variable. -/
  | binder (v : Var)
  /-- A leaf that refers to a variable. -/
  | leaf (v : Var)
  deriving DecidableEq

/-- What a visit does to the variables that are vacuous so far. -/
def Visit.step (vacuous : List Var) : Visit → List Var
  | .binder v => if v ∈ vacuous then vacuous else v :: vacuous
  | .leaf v => vacuous.filter (· ≠ v)

mutual

/-- The binders and the leaves of a term in reading order. -/
def visits : Term → List Visit
  | .const _ => []
  | .var v => [.leaf v]
  | .lam v body => .binder v :: body.visits
  | .lit p as => p.visits ++ allVisits as

/-- The binders and the leaves of the terms in reading order. -/
def allVisits : List Term → List Visit
  | [] => []
  | t :: ts => t.visits ++ allVisits ts

end

mutual

/-- The term without the lambdas that bind one of these variables. -/
def without (vs : List Var) : Term → Term
  | .const c => .const c
  | .var v => .var v
  | .lam v body => if v ∈ vs then body.without vs else .lam v (body.without vs)
  | .lit p as => .lit (p.without vs) (allWithout vs as)

/-- The terms without the lambdas that bind one of these variables. -/
def allWithout (vs : List Var) : List Term → List Term
  | [] => []
  | t :: ts => t.without vs :: allWithout vs ts

end

variable {t : Term} {v : Var} {vs : List Var}

theorem allVisits_eq (ts : List Term) : allVisits ts = ts.flatMap visits := by
  induction ts with
  | nil => rfl
  | cons t ts ih => simp [allVisits, ih]

theorem allWithout_eq (vs : List Var) (ts : List Term) :
    allWithout vs ts = ts.map (without vs) := by
  induction ts with
  | nil => rfl
  | cons t ts ih => simp [allWithout, ih]

@[simp] theorem visits_const (c : Constant) : (const c).visits = [] := rfl

@[simp] theorem visits_var (v : Var) : (var v).visits = [.leaf v] := rfl

@[simp] theorem visits_lam (v : Var) (t : Term) : (lam v t).visits = .binder v :: t.visits := rfl

@[simp] theorem visits_lit (p : Term) (as : List Term) :
    (lit p as).visits = p.visits ++ as.flatMap visits := by
  rw [← allVisits_eq]
  rfl

theorem without_lam (vs : List Var) (v : Var) (t : Term) :
    (lam v t).without vs = if v ∈ vs then t.without vs else lam v (t.without vs) := rfl

@[simp] theorem without_lit (vs : List Var) (p : Term) (as : List Term) :
    (lit p as).without vs = lit (p.without vs) (as.map (without vs)) := by
  rw [← allWithout_eq]
  rfl

/-! ### The pass -/

theorem allVacuousAfter_eq_foldl {ts : List Term}
    (h : ∀ t ∈ ts, ∀ s, t.vacuousAfter s = t.visits.foldl Visit.step s) (s : List Var) :
    allVacuousAfter s ts = (ts.flatMap visits).foldl Visit.step s := by
  induction ts generalizing s with
  | nil => rfl
  | cons t ts ih =>
    rw [allVacuousAfter, List.flatMap_cons, List.foldl_append, h t (by simp),
      ih fun u hu => h u (by simp [hu])]

/-- The pass takes one visit after the other. -/
theorem vacuousAfter_eq_foldl (t : Term) (s : List Var) :
    t.vacuousAfter s = t.visits.foldl Visit.step s := by
  induction t generalizing s with
  | const c => rfl
  | var v => rfl
  | lam v body ih =>
    rw [vacuousAfter, ih]
    rfl
  | lit p as ihp ihas =>
    rw [vacuousAfter, ihp, allVacuousAfter_eq_foldl ihas, visits_lit, List.foldl_append]

theorem mem_step_binder {s : List Var} {w : Var} :
    v ∈ Visit.step s (.binder w) ↔ v = w ∨ v ∈ s := by
  rw [Visit.step]
  split_ifs with h
  · exact ⟨.inr, fun hv => hv.elim (fun heq => heq ▸ h) id⟩
  · exact List.mem_cons

theorem mem_step_leaf {s : List Var} {w : Var} : v ∈ Visit.step s (.leaf w) ↔ v ∈ s ∧ v ≠ w := by
  rw [Visit.step, List.mem_filter, decide_eq_true_iff]

/-- A variable is vacuous in the end if no leaf of it comes behind its last binder, or if it was
vacuous before and no leaf of it comes at all. -/
theorem mem_foldl_step_iff {xs : List Visit} {s : List Var} :
    v ∈ xs.foldl Visit.step s ↔
      (v ∈ s ∧ .leaf v ∉ xs) ∨
        ∃ before after, xs = before ++ .binder v :: after ∧ .leaf v ∉ after := by
  induction xs generalizing s with
  | nil => simp
  | cons x xs ih =>
    -- the first visit is the last binder, or the last binder is behind it
    have hsplit : (∃ before after, x :: xs = before ++ .binder v :: after ∧ .leaf v ∉ after) ↔
        (x = .binder v ∧ .leaf v ∉ xs) ∨
          ∃ before after, xs = before ++ .binder v :: after ∧ .leaf v ∉ after := by
      constructor
      · rintro ⟨before, after, heq, hafter⟩
        cases before with
        | nil =>
          cases heq
          exact .inl ⟨rfl, hafter⟩
        | cons y before =>
          cases heq
          exact .inr ⟨before, after, rfl, hafter⟩
      · rintro (⟨rfl, hxs⟩ | ⟨before, after, rfl, hafter⟩)
        · exact ⟨[], xs, rfl, hxs⟩
        · exact ⟨x :: before, after, rfl, hafter⟩
    rw [List.foldl_cons, ih, hsplit, ← or_assoc]
    refine or_congr_left ?_
    cases x with
    | binder w =>
      rw [mem_step_binder]
      simp only [List.mem_cons, reduceCtorEq, false_or, Visit.binder.injEq]
      rw [← or_and_right, or_comm, eq_comm]
    | leaf w =>
      rw [mem_step_leaf]
      simp [and_assoc]

theorem leaf_mem_visits_iff : .leaf v ∈ t.visits ↔ t.mentions v = true := by
  induction t with
  | const c => simp
  | var w => simp [eq_comm]
  | lam w body ih => simp [ih]
  | lit p as ihp ihas =>
    rw [visits_lit, mentions_lit, List.mem_append, List.mem_flatMap, ihp, Bool.or_eq_true,
      List.any_eq_true]
    exact or_congr_right (exists_congr fun a => and_congr_right fun ha => ihas a ha)

theorem binder_mem_visits_iff : .binder v ∈ t.visits ↔ v ∈ t.binders := by
  induction t with
  | const c => simp
  | var w => simp
  | lam w body ih => simp [ih]
  | lit p as ihp ihas =>
    rw [visits_lit, binders_lit, List.mem_append, List.mem_append, List.mem_flatMap,
      List.mem_flatMap, ihp]
    exact or_congr_right (exists_congr fun a => and_congr_right fun ha => ihas a ha)

theorem mem_vacuousAfter_iff {s : List Var} :
    v ∈ t.vacuousAfter s ↔
      (v ∈ s ∧ t.mentions v = false) ∨
        ∃ before after, t.visits = before ++ .binder v :: after ∧ .leaf v ∉ after := by
  rw [vacuousAfter_eq_foldl, mem_foldl_step_iff, leaf_mem_visits_iff, Bool.not_eq_true]

theorem mem_vacuous_iff_visits :
    v ∈ t.vacuous ↔ ∃ before after, t.visits = before ++ .binder v :: after ∧ .leaf v ∉ after := by
  rw [vacuous, mem_vacuousAfter_iff]
  simp

theorem mem_vacuous_of_mentions_eq_false (hv : v ∈ t.binders) (h : t.mentions v = false) :
    v ∈ t.vacuous := by
  obtain ⟨before, after, hvisits⟩ := List.append_of_mem (binder_mem_visits_iff.2 hv)
  refine mem_vacuous_iff_visits.2 ⟨before, after, hvisits, fun hleaf => ?_⟩
  have hmem : .leaf v ∈ t.visits := by
    rw [hvisits]
    simp [hleaf]
  rw [leaf_mem_visits_iff, h] at hmem
  cases hmem

/-! ### Vacuous variables and unused lambdas -/

theorem vacuous_eq_foldl (t : Term) : t.vacuous = t.visits.foldl Visit.step [] :=
  vacuousAfter_eq_foldl t []

/-- What is vacuous behind two passes is vacuous behind the first one, or by the second one. -/
theorem mem_foldl_step_of_append {xs ys : List Visit}
    (h : v ∈ (xs ++ ys).foldl Visit.step []) :
    v ∈ xs.foldl Visit.step [] ∨ v ∈ ys.foldl Visit.step [] := by
  rw [List.foldl_append, mem_foldl_step_iff] at h
  rcases h with ⟨h, -⟩ | h
  · exact .inl h
  · exact .inr (mem_foldl_step_iff.2 (.inr h))

theorem exists_mem_vacuous {ts : List Term}
    (h : v ∈ (ts.flatMap visits).foldl Visit.step []) : ∃ t ∈ ts, v ∈ t.vacuous := by
  induction ts with
  | nil => cases h
  | cons t ts ih =>
    rw [List.flatMap_cons] at h
    rcases mem_foldl_step_of_append h with h | h
    · exact ⟨t, by simp, by rwa [vacuous_eq_foldl]⟩
    · obtain ⟨u, hu, hv⟩ := ih h
      exact ⟨u, by simp [hu], hv⟩

theorem unused_of_mem_vacuous (h : v ∈ t.vacuous) :
    ∃ body, (v, body) ∈ t.lambdas ∧ body.mentions v = false := by
  induction t with
  | const c => cases h
  | var w => cases h
  | lam w body ih =>
    obtain ⟨before, after, heq, hafter⟩ := mem_vacuous_iff_visits.1 h
    cases before with
    | nil =>
      cases heq
      rw [leaf_mem_visits_iff, Bool.not_eq_true] at hafter
      exact ⟨body, by simp, hafter⟩
    | cons x before =>
      have heq : body.visits = before ++ .binder v :: after := (List.cons.inj heq).2
      obtain ⟨b, hb, hunused⟩ := ih (mem_vacuous_iff_visits.2 ⟨before, after, heq, hafter⟩)
      exact ⟨b, by simp [hb], hunused⟩
  | lit p as ihp ihas =>
    rw [vacuous_eq_foldl, visits_lit] at h
    rw [lambdas_lit]
    rcases mem_foldl_step_of_append h with h | h
    · obtain ⟨b, hb, hunused⟩ := ihp (by rwa [vacuous_eq_foldl])
      exact ⟨b, by simp [hb], hunused⟩
    · obtain ⟨a, ha, h⟩ := exists_mem_vacuous h
      obtain ⟨b, hb, hunused⟩ := ihas a ha h
      exact ⟨b, List.mem_append_right _ (List.mem_flatMap.2 ⟨a, ha, hb⟩), hunused⟩

theorem mem_binders_of_mem_lambdas {l : Var × Term} (h : l ∈ t.lambdas) : l.1 ∈ t.binders := by
  rw [← map_fst_lambdas]
  exact List.mem_map_of_mem h

/-! ### Hygienic terms -/

theorem Hygienic.mentions_of_mem_lambdas (ht : t.Hygienic) {l : Var × Term} (hl : l ∈ t.lambdas)
    (h : t.mentions l.1 = true) : l.2.mentions l.1 = true := by
  induction t with
  | const c => cases hl
  | var w => cases hl
  | lam w body ih =>
    rcases List.mem_cons.1 hl with rfl | hl
    · exact h
    · exact ih ht.of_lam hl h
  | lit p as ihp ihas =>
    have hmembers : ∀ t ∈ p :: as, l ∈ t.lambdas → t.mentions l.1 = true := fun t hmem hl =>
      ht.mentions_of_lit hmem (mem_binders_of_mem_lambdas hl) h
    rw [lambdas_lit, List.mem_append, List.mem_flatMap] at hl
    rcases hl with hl | ⟨a, ha, hl⟩
    · exact ihp (ht.of_lit (by simp)) hl (hmembers p (by simp) hl)
    · exact ihas a ha (ht.of_lit (by simp [ha])) hl (hmembers a (by simp [ha]) hl)

theorem Hygienic.eq_of_mem_lambdas (ht : t.Hygienic) {b b' : Term} (hb : (v, b) ∈ t.lambdas)
    (hb' : (v, b') ∈ t.lambdas) : b = b' := by
  have hnodup : (t.lambdas.map Prod.fst).Nodup := by
    rw [map_fst_lambdas]
    exact ht.1
  have hsingle := (filter_lambdas hnodup hb).symm.trans (filter_lambdas hnodup hb')
  simpa using hsingle

/-- The vacuous variables of a hygienic term are the ones whose lambda is unused. -/
theorem Hygienic.mem_vacuous_iff_unused (ht : t.Hygienic) {l : Var × Term} (hl : l ∈ t.lambdas) :
    l.1 ∈ t.vacuous ↔ l.2.mentions l.1 = false := by
  constructor
  · intro h
    obtain ⟨body, hbody, hunused⟩ := unused_of_mem_vacuous h
    rwa [ht.eq_of_mem_lambdas hl hbody]
  · intro h
    refine mem_vacuous_of_mentions_eq_false (mem_binders_of_mem_lambdas hl) ?_
    rw [← Bool.not_eq_true] at h ⊢
    exact fun hmentions => h (ht.mentions_of_mem_lambdas hl hmentions)

/-- **When a variable is vacuous.**  The last binder of the variable is behind all of its leaves.
So every variable that is bound and not mentioned is vacuous, and in a hygienic term no other one
is. -/
theorem mem_vacuous_iff (t : Term) (v : Var) :
    (v ∈ t.vacuous ↔
      ∃ before after, t.visits = before ++ .binder v :: after ∧ .leaf v ∉ after) ∧
    (v ∈ t.binders → t.mentions v = false → v ∈ t.vacuous) ∧
    (t.Hygienic → v ∈ t.vacuous → v ∈ t.binders ∧ t.mentions v = false) := by
  refine ⟨mem_vacuous_iff_visits, mem_vacuous_of_mentions_eq_false, fun ht h => ?_⟩
  obtain ⟨body, hbody, hunused⟩ := unused_of_mem_vacuous h
  refine ⟨mem_binders_of_mem_lambdas hbody, ?_⟩
  rw [← Bool.not_eq_true] at hunused ⊢
  exact fun hmentions => hunused (ht.mentions_of_mem_lambdas hbody hmentions)

/-- Two lambdas side by side, the second of which does not mention its argument. -/
theorem mem_vacuous_iff_second :
    let t : Term := .lit (.lam ⟨0, .atom "e"⟩ (.var ⟨0, .atom "e"⟩))
      [.lam ⟨1, .atom "e"⟩ (.const ⟨"c", .atom "t"⟩)]
    let v : Var := ⟨1, .atom "e"⟩
    v ∈ t.vacuous ∧ t.Hygienic ∧ v ∈ t.binders ∧ t.mentions v = false := by
  intro t v
  have hvacuous : v ∈ t.vacuous := (mem_vacuous_iff t v).2.1 (by decide) (by decide)
  have hhygienic : t.Hygienic := ⟨by decide, by decide⟩
  exact ⟨hvacuous, hhygienic, (mem_vacuous_iff t v).2.2 hhygienic hvacuous⟩

/-- Two lambdas side by side that bind the same variable, which is mentioned in the first of them
only.  The second one makes it vacuous again. -/
theorem mentions_of_mem_vacuous_rebound :
    let t : Term := .lit
      (.lam ⟨0, .atom "e"⟩ (.lit (.const ⟨"q", .atom "t"⟩) [.var ⟨0, .atom "e"⟩]))
      [.lam ⟨0, .atom "e"⟩ (.const ⟨"c", .atom "t"⟩)]
    let v : Var := ⟨0, .atom "e"⟩
    v ∈ t.vacuous ∧ v ∈ t.binders ∧ t.mentions v = true := by
  decide

/-! ### Simplification -/

/-- Dropping the unused lambdas is dropping those that bind certain variables, if these are the
arguments of the unused lambdas. -/
theorem prune_eq_without (h : ∀ l ∈ t.lambdas, l.1 ∈ vs ↔ l.2.mentions l.1 = false) :
    t.prune = t.without vs := by
  induction t with
  | const c => rfl
  | var w => rfl
  | lam w body ih =>
    rw [lambdas_lam, List.forall_mem_cons] at h
    rw [prune_lam, without_lam, ih h.2]
    cases hw : body.mentions w with
    | true => rw [if_pos rfl, if_neg (by simp [h.1, hw])]
    | false => rw [if_neg (by simp), if_pos (h.1.2 hw)]
  | lit p as ihp ihas =>
    simp only [lambdas_lit, List.mem_append, List.mem_flatMap] at h
    rw [prune_lit, without_lit, ihp fun l hl => h l (.inl hl)]
    congr 1
    exact List.map_congr_left fun a ha => ihas a ha fun l hl => h l (.inr ⟨a, ha, hl⟩)

theorem vacuous_prune (t : Term) : t.prune.vacuous = [] := by
  refine List.eq_nil_iff_forall_not_mem.2 fun v hv => ?_
  obtain ⟨body, hbody, hunused⟩ := unused_of_mem_vacuous hv
  rw [mentions_of_mem_lambdas_prune hbody] at hunused
  cases hunused

theorem without_nil (t : Term) : t.without [] = t := by
  induction t with
  | const c => rfl
  | var w => rfl
  | lam w body ih => rw [without_lam, if_neg (by simp), ih]
  | lit p as ihp ihas =>
    have has : as.map (without []) = as.map id := List.map_congr_left ihas
    rw [without_lit, ihp, has, List.map_id]

/-- **Stripping drops the lambdas of the vacuous variables.**  No term has vacuous variables when it
is stripped; and stripping a term that was read is dropping those of its lambdas whose argument is
vacuous, so it changes nothing exactly if there are none. -/
theorem simplify_eq_without_vacuous (t : Term) :
    (t.simplify true).vacuous = [] ∧
      ∀ {next n : Nat} {s : String}, readFrom next s = .ok (t, n) →
        t.simplify true = t.without t.vacuous ∧ (t.simplify true = t ↔ t.vacuous = []) := by
  rw [simplify_true]
  refine ⟨vacuous_prune t, fun hread => ?_⟩
  have hwithout : t.prune = t.without t.vacuous :=
    prune_eq_without fun l hl => (hygienic_of_readFrom hread).mem_vacuous_iff_unused hl
  refine ⟨hwithout, fun h => ?_, fun h => ?_⟩
  · rw [← h, vacuous_prune]
  · rw [hwithout, h, without_nil]

/-- The first lambda mentions its argument, the second one does not. -/
theorem simplify_eq_without_vacuous_second :
    let t : Term := .lam ⟨0, .atom "e"⟩ (.lam ⟨1, .atom "e"⟩ (.var ⟨0, .atom "e"⟩))
    readFrom 0 "(lambda $0:e (lambda $1:e $0))" = .ok (t, 2) ∧
      t.simplify true = t.without t.vacuous ∧ (t.simplify true = t ↔ t.vacuous = []) := by
  intro t
  have hread : readFrom 0 "(lambda $0:e (lambda $1:e $0))" = .ok (t, 2) := by decide +kernel
  exact ⟨hread, (simplify_eq_without_vacuous t).2 hread⟩

end Term

end LogicalForms
