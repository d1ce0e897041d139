import LogicalForms.Proofs.Learning.Ledger
import LogicalForms.Proofs.List.FirstPlaces
import Mathlib.Data.List.Sort
import Mathlib.Data.Prod.Lex

/-!
# Violations as a scan meets them

`violations` finds the violating pairs row by row, and afterwards keeps the first place of each
member.  `scan` goes through the pairs one by one, flags the members of each violation and passes
over the pairs whose members are both flagged.  The two come to the same (`violations_eq_map_scan`):
either way, what counts is the list of the violating pairs (`violatingPairs`).

* `sorted_valid_scan` — the valid members keep their own order;
* `pairwise_invalid_scan` — the invalid members come in the order in which they are met;
* `violations_map` — violations go by places, so those of images are images of violations.

As a violation has a member on either side, no update is ever asked for from one side alone
(`violations_eq_scan`).
-/

namespace LogicalForms

variable {δ : Type} {m n : ℕ}

/-! ### The scan -/

/-- The positions that a scan has flagged, each side in the order in which it was flagged. -/
structure Flagged (m n : ℕ) where
  /-- Positions of valid members. -/
  valid : List (Fin m) := []
  /-- Positions of invalid members. -/
  invalid : List (Fin n) := []

/-- Comes to one pair.  It is passed over if both members are flagged; else it is tested, and its
members are flagged if it violates the test. -/
def Flagged.visitPair (test : Fin m → Fin n → Bool) (found : Flagged m n) (i : Fin m) (j : Fin n) :
    Flagged m n :=
  if i ∈ found.valid ∧ j ∈ found.invalid then found
  else if test i j then ⟨flag found.valid i, flag found.invalid j⟩
  else found

/-- Goes through all pairs, for one valid member after the other. -/
def scan (test : Fin m → Fin n → Bool) : Flagged m n :=
  (List.finRange m).foldl
    (fun found i => (List.finRange n).foldl (fun found j => found.visitPair test i j) found) {}

/-- The pairs that violate the test, row by row. -/
def violatingPairs (test : Fin m → Fin n → Bool) : List (Fin m × Fin n) :=
  (List.finRange m).flatMap fun i => ((List.finRange n).filter (test i)).map (i, ·)

variable {test : Fin m → Fin n → Bool} {i : Fin m} {j : Fin n}

/-- Passing over a pair leaves no trace: its members would not be flagged again. -/
theorem Flagged.visitPair_eq (found : Flagged m n) :
    found.visitPair test i j =
      if test i j then ⟨flag found.valid i, flag found.invalid j⟩ else found := by
  rw [Flagged.visitPair]
  split_ifs with hflagged htest
  · rw [flag_of_mem hflagged.1, flag_of_mem hflagged.2]
  · rfl
  · rfl
  · rfl

/-- **A scan flags the members of the violations one after the other.** -/
theorem Flagged.foldl_visitPair (ps : List (Fin m × Fin n)) (found : Flagged m n) :
    ps.foldl (fun found p => found.visitPair test p.1 p.2) found =
      ⟨((ps.filter fun p => test p.1 p.2).map Prod.fst).foldl flag found.valid,
        ((ps.filter fun p => test p.1 p.2).map Prod.snd).foldl flag found.invalid⟩ := by
  induction ps generalizing found with
  | nil => rfl
  | cons p ps ih =>
    rw [List.foldl_cons, ih, visitPair_eq, List.filter_cons]
    split_ifs with htest
    · rfl
    · rfl

theorem scan_eq (test : Fin m → Fin n → Bool) :
    scan test = ⟨((violatingPairs test).map Prod.fst).eraseDups,
      ((violatingPairs test).map Prod.snd).eraseDups⟩ := by
  -- both loops together are one through the list of all pairs
  have hflat : scan test =
      ((List.finRange m).flatMap fun i => (List.finRange n).map (i, ·)).foldl
        (fun found p => found.visitPair test p.1 p.2) {} := by
    simp only [List.foldl_flatMap, List.foldl_map, scan]
  have hpairs : ((List.finRange m).flatMap fun i => (List.finRange n).map (i, ·)).filter
      (fun p => test p.1 p.2) = violatingPairs test := by
    rw [List.filter_flatMap, violatingPairs]
    exact List.flatMap_congr fun i _ => List.filter_map
  rw [hflat, Flagged.foldl_visitPair, hpairs, foldl_flag, foldl_flag]

/-! ### What the scan flags -/

theorem mem_violatingPairs {p : Fin m × Fin n} : p ∈ violatingPairs test ↔ test p.1 p.2 = true := by
  obtain ⟨i, j⟩ := p
  simp [violatingPairs]

theorem mem_valid_scan : i ∈ (scan test).valid ↔ ∃ j, test i j = true := by
  simp [scan_eq, mem_violatingPairs]

theorem mem_invalid_scan : j ∈ (scan test).invalid ↔ ∃ i, test i j = true := by
  simp [scan_eq, mem_violatingPairs]

theorem pairwise_violatingPairs (test : Fin m → Fin n → Bool) :
    (violatingPairs test).Pairwise fun p q => toLex p < toLex q := by
  refine List.pairwise_flatMap.2 ⟨fun i _ => ?_, ?_⟩
  · rw [List.pairwise_map]
    refine ((List.pairwise_lt_finRange n).filter _).imp fun {j j'} h => ?_
    exact Prod.Lex.toLex_lt_toLex.2 (.inr ⟨rfl, h⟩)
  · refine (List.pairwise_lt_finRange m).imp fun {i i'} h => ?_
    simp only [List.forall_mem_map]
    exact fun j _ j' _ => Prod.Lex.toLex_lt_toLex.2 (.inl h)

/-- A violation with the invalid member at `j` comes before all violations with that at `j'`. -/
def MetBefore (test : Fin m → Fin n → Bool) (j j' : Fin n) : Prop :=
  ∃ i, test i j = true ∧ ∀ i', test i' j' = true → toLex (i, j) < toLex (i', j')

/-- **Invalid members are flagged in the order in which they are met.** -/
theorem pairwise_invalid_scan (test : Fin m → Fin n → Bool) :
    (scan test).invalid.Pairwise (MetBefore test) := by
  rw [scan_eq]
  refine (pairwise_eraseDups_map Prod.snd (pairwise_violatingPairs test)).imp fun {j j'} h => ?_
  obtain ⟨p, hp, rfl, hbefore⟩ := h
  exact ⟨p.1, mem_violatingPairs.1 hp,
    fun i' hi' => hbefore (i', j') (mem_violatingPairs.2 hi') rfl⟩

theorem nodup_invalid_scan (test : Fin m → Fin n → Bool) : (scan test).invalid.Nodup := by
  refine (pairwise_invalid_scan test).imp fun {j j'} h heq => ?_
  obtain ⟨i, hi, hbefore⟩ := h
  subst heq
  exact lt_irrefl _ (hbefore i hi)

/-- **Valid members are flagged in their own order.** -/
theorem sorted_valid_scan (test : Fin m → Fin n → Bool) : (scan test).valid.SortedLT := by
  have hmet := pairwise_eraseDups_map Prod.fst (pairwise_violatingPairs test)
  rw [scan_eq]
  refine List.Pairwise.sortedLT ((List.Pairwise.and_mem.1 hmet).imp ?_)
  rintro i i' ⟨-, hi', p, hp, rfl, hbefore⟩
  rw [List.mem_eraseDups, List.mem_map] at hi'
  obtain ⟨q, hq, rfl⟩ := hi'
  rcases Prod.Lex.toLex_lt_toLex.1 (hbefore q hq rfl) with hlt | ⟨heq, -⟩
  · exact hlt
  · exact absurd (hbefore p hp heq) (lt_irrefl _)

/-! ### Rows against the scan -/

/-- The test of the members at two positions. -/
def testAt (test : δ → δ → Bool) (valid invalid : List δ) (i : Fin valid.length)
    (j : Fin invalid.length) : Bool :=
  test (valid.get i) (invalid.get j)

/-- A row is not empty where the scan flags a valid member. -/
theorem filter_isEmpty_violatedBy (test : δ → δ → Bool) (valid invalid : List δ) :
    (List.finRange valid.length).filter
        (fun i => !(violatedBy test invalid (valid.get i)).isEmpty) =
      (scan (testAt test valid invalid)).valid := by
  refine List.SortedLT.eq_of_mem_iff ?_ (sorted_valid_scan _) fun i => ?_
  · exact ((List.pairwise_lt_finRange _).filter _).sortedLT
  · rw [mem_valid_scan]
    simp [violatedBy, testAt]

/-- The rows, one after the other, are what the scan meets of the invalid members. -/
theorem flatMap_violatedBy (test : δ → δ → Bool) (valid invalid : List δ) :
    valid.flatMap (violatedBy test invalid) =
      (violatingPairs (testAt test valid invalid)).map Prod.snd := by
  conv_lhs => rw [← List.map_get_finRange valid, List.flatMap_map]
  rw [violatingPairs, List.map_flatMap]
  refine List.flatMap_congr fun i _ => ?_
  rw [List.map_map]
  exact (List.map_id _).symm

/-- **The rows give what the scan flags.** -/
theorem violations_eq_map_scan (test : δ → δ → Bool) (valid invalid : List δ) :
    violations test valid invalid =
      ((scan (testAt test valid invalid)).valid.map valid.get,
        (scan (testAt test valid invalid)).invalid.map invalid.get) := by
  have hvalid : valid.filter (fun v => !(violatedBy test invalid v).isEmpty) =
      (scan (testAt test valid invalid)).valid.map valid.get := by
    conv_lhs => rw [← List.map_get_finRange valid, List.filter_map]
    rw [← filter_isEmpty_violatedBy]
    rfl
  have hinvalid : (valid.flatMap (violatedBy test invalid)).eraseDups =
      (scan (testAt test valid invalid)).invalid := by
    rw [flatMap_violatedBy, scan_eq]
  rw [violations, hvalid, hinvalid]
  rfl

theorem violations_eq_nil_iff (test : δ → δ → Bool) (valid invalid : List δ) :
    (violations test valid invalid).1 = [] ↔ (violations test valid invalid).2 = [] := by
  rw [violations_eq_map_scan, List.map_eq_nil_iff, List.map_eq_nil_iff,
    List.eq_nil_iff_forall_not_mem, List.eq_nil_iff_forall_not_mem]
  simp only [mem_valid_scan, mem_invalid_scan]
  exact ⟨fun h j ⟨i, hij⟩ => h i ⟨j, hij⟩, fun h i ⟨j, hij⟩ => h j ⟨i, hij⟩⟩

/-! ### Violations of images -/

section Image

variable {γ : Type}

theorem finRange_map_cast (h : m = n) : (List.finRange m).map (Fin.cast h) = List.finRange n := by
  subst h
  exact List.map_id _

theorem violatedBy_map (test : γ → γ → Bool) (f : δ → γ) (invalid : List δ) (v : δ) :
    violatedBy test (invalid.map f) (f v) =
      (violatedBy (fun v w => test (f v) (f w)) invalid v).map
        (Fin.cast (List.length_map f).symm) := by
  rw [violatedBy, ← finRange_map_cast (List.length_map f).symm, List.filter_map]
  refine congrArg (List.map _) (List.filter_congr fun j _ => ?_)
  simp

/-- **Violations of images are images of violations.** -/
theorem violations_map (test : γ → γ → Bool) (f : δ → γ) (valid invalid : List δ) :
    violations test (valid.map f) (invalid.map f) =
      let found := violations (fun v w => test (f v) (f w)) valid invalid
      (found.1.map f, found.2.map f) := by
  have hcast : ∀ j : Fin invalid.length,
      (invalid.map f)[Fin.cast (List.length_map f).symm j] = f invalid[j] := fun j => by simp
  refine Prod.ext ?_ ?_
  · simp only [violations, List.filter_map]
    refine congrArg (List.map f) (List.filter_congr fun v _ => ?_)
    rw [Function.comp_apply, violatedBy_map, List.isEmpty_map]
  · simp only [violations, List.flatMap_map, violatedBy_map]
    rw [← List.map_flatMap, eraseDups_map fun i _ j _ h => Fin.cast_injective _ h, List.map_map,
      List.map_map]
    exact List.map_congr_left fun j _ => hcast j

end Image

/-! ### No update from one side -/

variable {Item S L α W : Type} [Zero α] [One α] [Add α] [Neg α] [Mul α] [Div α] [NatCast α] [LT α]
  [DecidableLT α] [LE α] [DecidableLE α] [BEq α] [OfScientific α] [ScoreRange α]

theorem parameterUpdate_ne_emptyViolatingSet (params : Params α) (accepts : Term → Bool)
    (visit : Visit) (real good : ParserOutput α) (p : Progress S α) :
    (parameterUpdate params accepts visit real good p).1 ≠ .error .emptyViolatingSet := by
  obtain ⟨recorded, q, hparse, -, -, rfl | ⟨rfl, -⟩⟩ :=
    recordParse_spec params accepts visit real good p
  all_goals rw [parameterUpdate_eq, hparse]
  · rcases hproposed : proposedUpdate params accepts real good p.model with e | _ | update
    · obtain ⟨update, rfl, -⟩ := of_proposedUpdate_eq_error hproposed
      exact nofun
    · exact nofun
    · exact nofun
  · exact nofun

namespace Learner

theorem train_ne_emptyViolatingSet (l : Learner (StateM W) Item S L α) (items : List Item)
    (model : Model S α) (w : W) :
    ((l.train items model).run w).1.1 ≠ .error .emptyViolatingSet := by
  rw [train_eq]
  rcases hrun : exec (l.performAll (l.tasks items)) (⟨model, {}⟩, w) with ⟨e | u, p, w'⟩
  · obtain ⟨done, t, rest, s, htasks, -, ht⟩ := exists_of_performAll_error hrun
    have htask : t ∈ l.tasks items := by simp [htasks]
    have hepoch : t.epoch < lastEpoch := epoch_lt_of_mem_tasks htask
    rcases (of_perform_error (l.adoptPreserves_const ()) ht).1 hepoch with
      ⟨cause, rfl⟩ | ⟨update, rfl⟩
    · exact nofun
    · exact nofun
  · exact nofun

end Learner

/-- **Violations are what a scan of all pairs flags**, whatever the test.  Nothing is flagged twice;
valid members come in their own order, and invalid ones as they are met.  There are some on one side
just if there are some on the other, so neither an update nor training ever ends for want of
violations on one side. -/
theorem violations_eq_scan :
    (∀ (test : δ → δ → Bool) (valid invalid : List δ),
      let found := scan (testAt test valid invalid)
      let violating := violations test valid invalid
      violating = (found.valid.map valid.get, found.invalid.map invalid.get) ∧
        found.valid.SortedLT ∧ found.invalid.Nodup ∧
        found.invalid.Pairwise (MetBefore (testAt test valid invalid)) ∧
        (violating.1 = [] ↔ violating.2 = [])) ∧
    (∀ (params : Params α) (accepts : Term → Bool) (visit : Visit) (real good : ParserOutput α)
      (p : Progress S α),
      (parameterUpdate params accepts visit real good p).1 ≠ .error .emptyViolatingSet) ∧
    ∀ (l : Learner (StateM W) Item S L α) (items : List Item) (model : Model S α) (w : W),
      ((l.train items model).run w).1.1 ≠ .error .emptyViolatingSet := by
  refine ⟨fun test valid invalid => ?_, parameterUpdate_ne_emptyViolatingSet,
    Learner.train_ne_emptyViolatingSet⟩
  intro found violating
  refine ⟨violations_eq_map_scan test valid invalid, sorted_valid_scan _, nodup_invalid_scan _,
    pairwise_invalid_scan _, violations_eq_nil_iff test valid invalid⟩

end LogicalForms
