import LogicalForms.Proofs.Joint.Grouping
import LogicalForms.Proofs.List.FirstPlaces
import LogicalForms.Proofs.List.Lookup

/-!
# Groups in order of first appearance

Grouping is determined by the pairs: there is one group for each result, in the order in which the
results first appear, and it holds the pairs of that result as they were added
(`JointGroup.foldl_add`).

`Indexed` finds the group of a result in a table of positions and not by a search.  As long as the
table is in step with the groups (`Indexed.InStep`), which every new pair preserves, both ways of
grouping give the same groups (`Indexed.groups_ofPairs`).
-/

namespace LogicalForms

variable {α R : Type} {base : ParserOutput α} [DecidableEq R]

/-! ### The groups of a list of pairs -/

namespace JointGroup

/-- Puts a pair behind the others. -/
def push (p : JointPair base R) (g : JointGroup base R) : JointGroup base R :=
  { g with pairs := g.pairs ++ [p] }

/-- The pairs of a result. -/
def ofResult (ps : List (JointPair base R)) (r : R) : JointGroup base R :=
  ⟨r, ps.filter fun p => p.result = r⟩

variable {p : JointPair base R} {ps : List (JointPair base R)} {gs : List (JointGroup base R)}

theorem add_of_notMem (h : p.result ∉ gs.map result) : add p gs = gs ++ [⟨p.result, [p]⟩] := by
  induction gs with
  | nil => rfl
  | cons g gs ih =>
    rw [List.map_cons, List.mem_cons, not_or] at h
    rw [add, if_neg (Ne.symm h.1), ih h.2, List.cons_append]

/-- A pair whose result has a group goes into this group, and into no other one. -/
theorem add_of_mem (hgs : (gs.map result).Nodup) (h : p.result ∈ gs.map result) :
    add p gs = gs.map fun g => if g.result = p.result then g.push p else g := by
  induction gs with
  | nil => simp at h
  | cons g gs ih =>
    obtain ⟨hg, hgs⟩ := List.nodup_cons.1 hgs
    rw [add, List.map_cons]
    split_ifs with hresult
    · -- no further group has the result
      have hrest : ∀ h ∈ gs, (if h.result = p.result then h.push p else h) = h := by
        intro h hmem
        rw [if_neg]
        rintro heq
        exact hg (hresult.trans heq.symm ▸ List.mem_map_of_mem hmem)
      rw [List.map_congr_left hrest, List.map_id']
      rfl
    · rw [ih hgs ((List.mem_cons.1 h).resolve_left (Ne.symm hresult))]

theorem ofResult_append (ps : List (JointPair base R)) (p : JointPair base R) (r : R) :
    ofResult (ps ++ [p]) r = if r = p.result then (ofResult ps r).push p else ofResult ps r := by
  rw [ofResult, List.filter_append]
  split_ifs with h
  · simp [h, push, ofResult]
  · simp [Ne.symm h, ofResult]

theorem map_result_map_ofResult (ps : List (JointPair base R)) (rs : List R) :
    (rs.map (ofResult ps)).map result = rs := by
  rw [List.map_map]
  exact List.map_id' _

/-- **There is one group for each result**, in order of first appearance, and it holds the pairs of
the result in order. -/
theorem foldl_add (ps : List (JointPair base R)) :
    ps.foldl (fun gs p => add p gs) [] = (ps.map JointPair.result).eraseDups.map (ofResult ps) := by
  induction ps using List.reverseRecOn with
  | nil => rfl
  | append_singleton ps p ih =>
    have hresults := map_result_map_ofResult ps (ps.map JointPair.result).eraseDups
    rw [List.foldl_append, List.foldl_cons, List.foldl_nil, ih, List.map_append,
      List.map_singleton, eraseDups_append_singleton, flag]
    split_ifs with hp
    · have hnodup := nodup_eraseDups (ps.map JointPair.result)
      rw [← hresults] at hp hnodup
      rw [add_of_mem hnodup hp, List.map_map]
      exact List.map_congr_left fun r _ => (ofResult_append ps p r).symm
    · -- the result is new, so no pair before has it
      have hnone : ps.filter (fun q => q.result = p.result) = [] := by
        rw [List.filter_eq_nil_iff]
        intro q hq heq
        rw [decide_eq_true_eq] at heq
        exact hp (List.mem_eraseDups.2 (heq ▸ List.mem_map_of_mem hq))
      have hold : ∀ r ∈ (ps.map JointPair.result).eraseDups,
          ofResult (ps ++ [p]) r = ofResult ps r := by
        intro r hr
        have hne : r ≠ p.result := fun heq => hp (heq ▸ hr)
        rw [ofResult_append, if_neg hne]
      rw [List.map_append, List.map_singleton, List.map_congr_left hold, ofResult_append,
        if_pos rfl, push, ofResult, hnone, List.nil_append]
      rw [← hresults] at hp
      exact add_of_notMem hp

end JointGroup

/-! ### Grouping with a table of positions -/

/-- Groups, and where the group of each result stands. -/
structure Indexed (base : ParserOutput α) (R : Type) where
  /-- The position of the group of each result. -/
  positions : List (R × Nat)
  /-- The groups in the order in which they were opened. -/
  groups : List (JointGroup base R)

namespace Indexed

/-- The position of the group of a result.  If there is none, an empty one is opened at the end. -/
def place (t : Indexed base R) (r : R) : Nat × Indexed base R :=
  match t.positions.lookup r with
  | some i => (i, t)
  | none => (t.groups.length, ⟨(r, t.groups.length) :: t.positions, t.groups ++ [⟨r, []⟩]⟩)

/-- Puts a pair into the group of its result. -/
def add (t : Indexed base R) (p : JointPair base R) : Indexed base R :=
  let (i, t) := t.place p.result
  { t with groups := t.groups.modify i (JointGroup.push p) }

/-- The groups of a list of pairs. -/
def ofPairs (ps : List (JointPair base R)) : Indexed base R := ps.foldl add ⟨[], []⟩

omit [DecidableEq R] in
theorem getElem?_concat_eq_some_iff {rs : List R} {r r' : R} {i : Nat} :
    (rs ++ [r])[i]? = some r' ↔ rs[i]? = some r' ∨ i = rs.length ∧ r' = r := by
  grind

/-- The table tells where the groups are. -/
def InStep (t : Indexed base R) : Prop :=
  ∀ r i, t.positions.lookup r = some i ↔ (t.groups.map JointGroup.result)[i]? = some r

variable {t : Indexed base R}

theorem InStep.nodup (h : t.InStep) : (t.groups.map JointGroup.result).Nodup := by
  rw [List.nodup_iff_getElem?_ne_getElem?]
  intro i j hij hj heq
  have hsome : (t.groups.map JointGroup.result)[j]? =
      some (t.groups.map JointGroup.result)[j] := List.getElem?_eq_getElem hj
  have hfound := (h _ _).2 hsome
  rw [(h _ i).2 (heq.trans hsome), Option.some.injEq] at hfound
  omega

theorem InStep.lookup_eq_none_iff (h : t.InStep) {r : R} :
    t.positions.lookup r = none ↔ r ∉ t.groups.map JointGroup.result := by
  rw [Option.eq_none_iff_forall_ne_some, List.mem_iff_getElem?, not_exists]
  exact forall_congr' fun i => not_congr (h r i)

theorem inStep_place (h : t.InStep) (r : R) : (t.place r).2.InStep := by
  unfold place
  split
  · exact h
  · next hnone =>
    intro r' i
    rw [List.map_append, List.map_singleton, getElem?_concat_eq_some_iff, List.length_map,
      List.lookup_cons, ← h r' i]
    by_cases hr : r' = r
    · subst hr
      simp [hnone, eq_comm]
    · simp [beq_false_of_ne hr, hr]

omit [DecidableEq R] in
theorem map_result_modify (p : JointPair base R) (gs : List (JointGroup base R)) (i : Nat) :
    (gs.modify i (JointGroup.push p)).map JointGroup.result = gs.map JointGroup.result := by
  induction gs generalizing i with
  | nil => simp
  | cons g gs ih =>
    cases i with
    | zero => simp [JointGroup.push]
    | succ i => simp [ih]

/-- **The table stays in step with the groups.** -/
theorem inStep_add (h : t.InStep) (p : JointPair base R) : (t.add p).InStep := by
  intro r i
  change (t.place p.result).2.positions.lookup r = some i ↔
    (((t.place p.result).2.groups.modify _ (JointGroup.push p)).map JointGroup.result)[i]? = some r
  rw [map_result_modify]
  exact inStep_place h p.result r i

/-- The position of a result is where a search finds its group. -/
theorem add_eq_modify {p : JointPair base R} {gs : List (JointGroup base R)} {i : Nat}
    (hgs : (gs.map JointGroup.result).Nodup)
    (hi : (gs.map JointGroup.result)[i]? = some p.result) :
    JointGroup.add p gs = gs.modify i (JointGroup.push p) := by
  induction gs generalizing i with
  | nil => simp at hi
  | cons g gs ih =>
    obtain ⟨hg, hgs⟩ := List.nodup_cons.1 hgs
    cases i with
    | zero =>
      rw [List.map_cons, List.getElem?_cons_zero, Option.some.injEq] at hi
      rw [JointGroup.add, if_pos hi, List.modify_zero_cons]
      rfl
    | succ i =>
      rw [List.map_cons, List.getElem?_cons_succ] at hi
      have hne : g.result ≠ p.result := fun heq => hg (heq ▸ List.mem_of_getElem? hi)
      rw [JointGroup.add, if_neg hne, ih hgs hi, List.modify_succ_cons]

theorem groups_add (h : t.InStep) (p : JointPair base R) :
    (t.add p).groups = JointGroup.add p t.groups := by
  unfold add place
  cases hp : t.positions.lookup p.result with
  | some i => exact (add_eq_modify h.nodup ((h _ _).1 hp)).symm
  | none =>
    rw [JointGroup.add_of_notMem (h.lookup_eq_none_iff.1 hp)]
    simp [List.modify_eq_take_drop, JointGroup.push]

/-- **Both ways of grouping give the same groups.** -/
theorem groups_ofPairs (ps : List (JointPair base R)) :
    (ofPairs ps).InStep ∧ (ofPairs ps).groups = ps.foldl (fun gs p => JointGroup.add p gs) [] := by
  induction ps using List.reverseRecOn with
  | nil => exact ⟨by simp [InStep, ofPairs], rfl⟩
  | append_singleton ps p ih =>
    obtain ⟨hstep, hgroups⟩ := ih
    rw [ofPairs, List.foldl_append, List.foldl_append, ← hgroups]
    exact ⟨inStep_add hstep p, groups_add hstep p⟩

end Indexed

/-! ### Filling a builder -/

namespace Joint

namespace Builder

/-- What can be done to a builder. -/
inductive Call (base : ParserOutput α) (R : Type) where
  /-- Add a pair. -/
  | pair (p : JointPair base R)
  /-- Add pairs in order. -/
  | pairs (ps : List (JointPair base R))
  /-- Tell whether no evaluation was pruned. -/
  | exact (exact : Bool)

/-- The pairs that a call adds. -/
def Call.added : Call base R → List (JointPair base R)
  | .pair p => [p]
  | .pairs ps => ps
  | .exact _ => []

/-- The builder after a call. -/
def call (b : Builder base R) : Call base R → Builder base R
  | .pair p => b.addPair p
  | .pairs ps => b.addPairs ps
  | .exact e => b.setExact e

/-- The builder after calls, one after the other. -/
def calls (b : Builder base R) (cs : List (Call base R)) : Builder base R := cs.foldl call b

omit [DecidableEq R] in
theorem pairs_calls (b : Builder base R) (cs : List (Call base R)) :
    (b.calls cs).pairs = b.pairs ++ cs.flatMap Call.added := by
  induction cs generalizing b with
  | nil => exact (List.append_nil _).symm
  | cons c cs ih =>
    have hcall : (b.call c).pairs = b.pairs ++ c.added := by
      cases c with
      | pair p => rfl
      | pairs ps => rfl
      | exact e => exact (List.append_nil _).symm
    rw [calls, List.foldl_cons, ← calls, ih, hcall, List.flatMap_cons, List.append_assoc]

end Builder

/-! ### Looking groups up -/

variable (b : Builder base R)

theorem groups_build :
    b.build.groups =
      (b.pairs.map JointPair.result).eraseDups.map (JointGroup.ofResult b.pairs) :=
  JointGroup.foldl_add b.pairs

theorem results_build :
    b.build.groups.map JointGroup.result = (b.pairs.map JointPair.result).eraseDups := by
  rw [groups_build, JointGroup.map_result_map_ofResult]

theorem executions_build (accepts : R → Bool) :
    b.build.executions accepts =
      ((b.pairs.map JointPair.result).eraseDups.filter accepts).flatMap fun r =>
        b.pairs.filter fun p => p.result = r := by
  rw [executions, groups_build, List.filter_map, List.flatMap_map]
  rfl

theorem executionsFor_build (r : R) :
    b.build.executionsFor r = b.pairs.filter fun p => p.result = r := by
  have hnodup := nodup_eraseDups (b.pairs.map JointPair.result)
  rw [executionsFor, executions_build, List.filter_eq, hnodup.count]
  split_ifs with hr
  · exact List.flatMap_singleton _ r
  · have hnone : ∀ p ∈ b.pairs, ¬decide (p.result = r) = true := by
      intro p hp heq
      rw [decide_eq_true_eq] at heq
      exact hr (List.mem_eraseDups.2 (heq ▸ List.mem_map_of_mem hp))
    rw [List.filter_eq_nil_iff.2 hnone]
    rfl

/-- **Grouping is a stable partition of the pairs.**  However the pairs were added, there is one
group for each result, in the order in which the results first appear, and it holds the pairs of the
result in the order in which they were added.  No pair is lost or comes twice.  The pairs of one
result and those of the accepted results are found group by group, and a table of positions leads
to the same groups. -/
theorem build_partitions_pairs (cs : List (Builder.Call base R)) :
    let j := (Builder.calls {} cs).build
    let ps := cs.flatMap Builder.Call.added
    let results := j.groups.map JointGroup.result
    (results.Nodup ∧ results = (ps.map JointPair.result).eraseDups) ∧
      (∀ g ∈ j.groups, g.pairs = (ps.filter fun p => p.result = g.result) ∧ g.pairs ≠ []) ∧
      (j.executions fun _ => true).Perm ps ∧
      (∀ r, j.executionsFor r = ps.filter fun p => p.result = r) ∧
      (∀ accepts, j.executions accepts = (results.filter accepts).flatMap j.executionsFor) ∧
      (Indexed.ofPairs ps).groups = j.groups := by
  intro j ps results
  have hps : (Builder.calls {} cs).pairs = ps := Builder.pairs_calls {} cs
  have hresults : results = (ps.map JointPair.result).eraseDups := hps ▸ results_build _
  refine ⟨⟨hresults ▸ nodup_eraseDups _, hresults⟩, fun g hg => ?_, ?_, fun r => ?_,
    fun accepts => ?_, ?_⟩
  · rw [groups_build, hps] at hg
    obtain ⟨r, hr, rfl⟩ := List.mem_map.1 hg
    obtain ⟨p, hp, rfl⟩ := List.mem_map.1 (List.mem_eraseDups.1 hr)
    exact ⟨rfl, List.ne_nil_of_mem (List.mem_filter.2 ⟨hp, decide_eq_true rfl⟩)⟩
  · have hperm := executions_perm (Builder.calls {} cs) fun _ => true
    rwa [hps, List.filter_true] at hperm
  · rw [executionsFor_build, hps]
  · rw [executions_build, hps, ← hresults]
    refine List.flatMap_congr fun r _ => ?_
    rw [executionsFor_build, hps]
  · rw [(Indexed.groups_ofPairs ps).2, ← hps]
    rfl

/-- Two towns. -/
def towns : ParserOutput Nat where
  derivations :=
    [.single (.const ⟨"boston", .atom "e"⟩) 1 ∅, .single (.const ⟨"paris", .atom "e"⟩) 2 ∅]

/-- A town with a result. -/
def answer (i : Fin towns.size) (result : String) : JointPair towns String := ⟨i, result, 0, ∅⟩

/-- Results that come again in later calls. -/
def mixedCalls : List (Builder.Call towns String) :=
  [.pair (answer ⟨1, Nat.one_lt_two⟩ "west"), .exact true,
    .pairs [answer ⟨0, Nat.zero_lt_two⟩ "east", answer ⟨0, Nat.zero_lt_two⟩ "west"], .pairs [],
    .pair (answer ⟨1, Nat.one_lt_two⟩ "east")]

theorem build_partitions_pairs_mixed :
    let j := (Builder.calls {} mixedCalls).build
    let west : JointGroup towns String := ⟨"west",
      [answer ⟨1, Nat.one_lt_two⟩ "west", answer ⟨0, Nat.zero_lt_two⟩ "west"]⟩
    j.groups.map JointGroup.result = ["west", "east"] ∧ west ∈ j.groups ∧ west.pairs ≠ [] := by
  intro j west
  have hwest : west ∈ j.groups := .head _
  exact ⟨rfl, hwest, ((build_partitions_pairs mixedCalls).2.1 west hwest).2⟩

end Joint

end LogicalForms
