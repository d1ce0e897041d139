import LogicalForms.Proofs.Learning.Notes
import LogicalForms.Proofs.Learning.Step

/-!
# One visit

An update is made as a whole or not at all: `proposedUpdate` is the update of a visit, and
`parameterUpdate` adds it and records it in one go (`parameterUpdate_eq`).  What is added is
admitted by the model and free of noise (`of_proposedUpdate_eq_some`).  Before that, a valid parse
has been recorded (`recordParse_spec`), which is the only step where the number of epochs can
overflow.

`Learner.exec_learnFrom` says all that learning from an item can do.
-/

namespace LogicalForms

variable {Item S L α W : Type}

section Parts

variable [LT α] [DecidableLT α] [BEq α] [ScoreRange α]

/-- There is no valid derivation. -/
def noneValid (params : Params α) (accepts : Term → Bool) (real good : ParserOutput α) : Bool :=
  (Partition.ofOutputs id accepts params.hardUpdates real.derivations good.derivations).valid.isEmpty

/-- Records a valid parse, if there is one. -/
def recordParse (params : Params α) (accepts : Term → Bool) (visit : Visit)
    (real good : ParserOutput α) (p : Progress S α) :
    Except (LearningError α) Unit × Progress S α :=
  if noneValid params accepts real good then (.ok (), p) else p.record (·.recordValidParse visit)

variable {params : Params α} {accepts : Term → Bool} {visit : Visit} {real good : ParserOutput α}

theorem recordParse_eq (p : Progress S α) :
    recordParse params accepts visit real good p =
      if noneValid params accepts real good then (.ok (), p)
      else if visit.epoch < lastEpoch then (.ok (), p.enter (.mark .validParse visit))
      else (.error .overflow, p) := by
  have hrecord : p.record (·.recordValidParse visit) = _ :=
    p.record_write (.mark .validParse visit)
  rw [recordParse, hrecord]
  rfl

/-- **Recording a parse leaves the model and the recorded updates alone**, and only fails in the
last epoch. -/
theorem recordParse_spec (params : Params α) (accepts : Term → Bool) (visit : Visit)
    (real good : ParserOutput α) (p : Progress S α) :
    ∃ result q, recordParse params accepts visit real good p = (result, q) ∧
      q.model = p.model ∧ q.stats.triggeredUpdate = p.stats.triggeredUpdate ∧
      (result = .ok () ∨ result = .error .overflow ∧ lastEpoch ≤ visit.epoch) := by
  rw [recordParse_eq]
  split_ifs with hnone hepoch
  · exact ⟨_, _, rfl, rfl, rfl, .inl rfl⟩
  · exact ⟨_, _, rfl, rfl, rfl, .inl rfl⟩
  · exact ⟨_, _, rfl, rfl, rfl, .inr ⟨rfl, Nat.le_of_not_lt hepoch⟩⟩

end Parts

variable [Zero α] [One α] [Add α] [Neg α] [Mul α] [Div α] [NatCast α] [LT α] [DecidableLT α] [LE α]
  [DecidableLE α] [BEq α] [OfScientific α] [ScoreRange α]

/-- The derivations that violate the margin, the valid ones first. -/
def violating (params : Params α) (accepts : Term → Bool) (real good : ParserOutput α)
    (theta : FeatureVector α) : List (Derivation α) × List (Derivation α) :=
  let parts := Partition.ofOutputs id accepts params.hardUpdates real.derivations good.derivations
  violations (violatesMargin theta params.margin) parts.valid parts.invalid

/-- The update of a visit: none if there are no violations, and an error if the model refuses it. -/
def proposedUpdate (params : Params α) (accepts : Term → Bool) (real good : ParserOutput α)
    (model : Model S α) : Except (LearningError α) (Option (FeatureVector α)) :=
  let (valid, invalid) := violating params accepts real good model.theta
  if valid.isEmpty || invalid.isEmpty then .ok none
  else (constructUpdate model valid invalid).map some

variable {params : Params α} {accepts : Term → Bool} {visit : Visit} {real good : ParserOutput α}
  {model : Model S α} {update : FeatureVector α}

theorem proposedUpdate_of_noneValid (h : noneValid params accepts real good = true) :
    proposedUpdate params accepts real good model = .ok none := by
  rw [noneValid, List.isEmpty_iff] at h
  simp [proposedUpdate, violating, violations, h]

theorem parameterUpdate_eq_record (p : Progress S α) :
    parameterUpdate params accepts visit real good p =
      match recordParse params accepts visit real good p with
      | (.error e, q) => (.error e, q)
      | (.ok (), q) =>
        match proposedUpdate params accepts real good q.model with
        | .error e => (.error e, q)
        | .ok none => (.ok false, q)
        | .ok (some update) =>
          (((q.addUpdate update).record (·.recordUpdate visit)).1.map fun _ => true,
            ((q.addUpdate update).record (·.recordUpdate visit)).2) := by
  change (match recordParse params accepts visit real good p with
    | (.error e, q) => _
    | (.ok (), q) => _) = _
  rcases recordParse params accepts visit real good p with ⟨e | ⟨⟩, q⟩
  · rfl
  · unfold proposedUpdate violating
    simp only
    split_ifs
    · rfl
    · rcases constructUpdate q.model _ _ with e | update <;> rfl

/-- **An update is added and recorded, or neither.** -/
theorem parameterUpdate_eq (p : Progress S α) :
    parameterUpdate params accepts visit real good p =
      match recordParse params accepts visit real good p with
      | (.error e, q) => (.error e, q)
      | (.ok (), q) =>
        match proposedUpdate params accepts real good p.model with
        | .error e => (.error e, q)
        | .ok none => (.ok false, q)
        | .ok (some update) => (.ok true, (q.addUpdate update).enter (.mark .update visit)) := by
  rw [parameterUpdate_eq_record, recordParse_eq]
  split_ifs with hnone hepoch
  · simp only [proposedUpdate_of_noneValid hnone]
  · -- the epoch has room for an update as it had for the parse
    have hrecord : ∀ q : Progress S α,
        q.record (·.recordUpdate visit) = (.ok (), q.enter (.mark .update visit)) :=
      fun q => (q.record_write (.mark .update visit)).trans (if_pos hepoch)
    simp only [hrecord]
    rfl
  · rfl

omit [ScoreRange α] in
theorem of_constructUpdate_eq_ok {valid invalid : List (Derivation α)}
    (h : constructUpdate model valid invalid = .ok update) :
    model.admitsUpdate update = true ∧
      ∀ k x, update.get? k = some x → FeatureVector.noise ≤ magnitude x := by
  unfold constructUpdate at h
  split at h
  · cases h
  · simp only at h
    split_ifs at h with hadmits
    cases h
    refine ⟨hadmits, fun k x hx => ?_⟩
    rw [FeatureVector.dropNoise, FeatureVector.get?_filter, Option.filter_eq_some_iff] at hx
    exact of_decide_eq_true hx.2

omit [ScoreRange α] in
theorem of_constructUpdate_eq_error {valid invalid : List (Derivation α)} {e : LearningError α}
    (hne : ¬(valid.isEmpty || invalid.isEmpty) = true)
    (h : constructUpdate model valid invalid = .error e) :
    ∃ update, e = .invalidUpdate update ∧ model.admitsUpdate update = false := by
  unfold constructUpdate at h
  rw [if_neg hne] at h
  simp only at h
  split_ifs at h with hadmits
  cases h
  exact ⟨_, rfl, eq_false_of_ne_true hadmits⟩

theorem constructUpdate_of_proposedUpdate_eq_some
    (h : proposedUpdate params accepts real good model = .ok (some update)) :
    constructUpdate model (violating params accepts real good model.theta).1
      (violating params accepts real good model.theta).2 = .ok update := by
  unfold proposedUpdate at h
  simp only at h
  split at h
  · cases h
  · cases hc : constructUpdate model (violating params accepts real good model.theta).1
        (violating params accepts real good model.theta).2 with
    | error e => simp [hc, Except.map] at h
    | ok u => simpa [hc, Except.map] using h

/-- **What is added is admitted by the model and free of noise.** -/
theorem of_proposedUpdate_eq_some
    (h : proposedUpdate params accepts real good model = .ok (some update)) :
    model.admitsUpdate update = true ∧
      ∀ k x, update.get? k = some x → FeatureVector.noise ≤ magnitude x :=
  of_constructUpdate_eq_ok (constructUpdate_of_proposedUpdate_eq_some h)

/-- **The only error of an update is that the model refuses it.** -/
theorem of_proposedUpdate_eq_error {e : LearningError α}
    (h : proposedUpdate params accepts real good model = .error e) :
    ∃ update, e = .invalidUpdate update ∧ model.admitsUpdate update = false := by
  unfold proposedUpdate at h
  simp only at h
  split at h
  · cases h
  · next hne =>
    cases hc : constructUpdate model (violating params accepts real good model.theta).1
        (violating params accepts real good model.theta).2 with
    | error e' =>
      simp only [hc, Except.map, Except.error.injEq] at h
      exact h ▸ of_constructUpdate_eq_error hne hc
    | ok u => simp [hc, Except.map] at h

/-! ### A visit -/

namespace Learner

variable (l : Learner (StateM W) Item S L α) (item : Item) (v : Visit)

theorem learnFrom_eq :
    l.learnFrom item v = (do
      let (real, good) ← l.outputs item
      let (result, p) := parameterUpdate l.params (l.isValid item) v real good (← get)
      set p
      discard (MonadExcept.ofExcept result)) := by
  unfold learnFrom outputs realOutput goodOutput
  simp only [bind_assoc, pure_bind]
  refine bind_congr fun induction => ?_
  -- each way through the two parses ends with the same update
  rcases induction with ⟨_ | real, _ | generated⟩
  · simp only [bind_assoc, pure_bind]
  · simp only [bind_assoc, pure_bind]
    refine bind_congr fun real => ?_
    split_ifs <;> simp only [pure_bind]
  · simp only [pure_bind]
  · simp only [pure_bind]
    split_ifs <;> simp only [pure_bind]

/-- **All that learning from an item can do.** -/
theorem exec_learnFrom (s : Situation S α W) :
    exec (l.learnFrom item v) s =
      match exec (l.outputs item) s with
      | (.error e, s') => (.error e, s')
      | (.ok (real, good), p, w) =>
        match recordParse l.params (l.isValid item) v real good p with
        | (.error e, q) => (.error e, q, w)
        | (.ok (), q) =>
          match proposedUpdate l.params (l.isValid item) real good p.model with
          | .error e => (.error e, q, w)
          | .ok none => (.ok (), q, w)
          | .ok (some update) => (.ok (), (q.addUpdate update).enter (.mark .update v), w) := by
  rw [learnFrom_eq, exec_bind]
  rcases exec (l.outputs item) s with ⟨e | ⟨real, good⟩, p, w⟩
  · rfl
  · simp only [exec_bind, exec_get]
    rw [parameterUpdate_eq]
    rcases recordParse l.params (l.isValid item) v real good p with ⟨e | ⟨⟩, q⟩
    · rfl
    · rcases proposedUpdate l.params (l.isValid item) real good p.model with e | _ | update
      · rfl
      · rfl
      · rfl

end Learner

end LogicalForms
