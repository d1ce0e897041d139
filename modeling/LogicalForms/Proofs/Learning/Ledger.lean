import LogicalForms.Proofs.Learning.Schedule

/-!
# The ledger of a run

The ledger lists the updates that a run applies, each with its visit and the model that admitted it
(`Learner.ledger`).  One task applies its update as a whole or nothing at all
(`Learner.perform_cases`), so at every point of a run the weights are the initial ones with the
updates of the ledger added in order, and these visits are the recorded ones
(`Learner.accounts_of_performAll`).
-/

namespace LogicalForms

variable {m : Type → Type} {Item S L α γ W : Type}

/-- An update that was added to the weights. -/
structure Applied (S α : Type) where
  /-- The visit that it was built for. -/
  visit : Visit
  /-- The model at that time. -/
  model : Model S α
  /-- The update. -/
  update : FeatureVector α

/-- The update was admitted by the model, and has no noise. -/
structure Applied.Proper [Zero α] [Neg α] [LT α] [DecidableLT α] [LE α] [BEq α] [OfScientific α]
    (a : Applied S α) : Prop where
  admitted : a.model.admitsUpdate a.update = true
  noise_le : ∀ k x, a.update.get? k = some x → FeatureVector.noise ≤ magnitude x

/-- What the progress `p` owes to the applied updates, when it was `start` before them. -/
structure Accounts [Zero α] [One α] [Add α] [Mul α] (start : Progress S α)
    (entries : List (Applied S α)) (p : Progress S α) : Prop where
  theta_eq : p.model.theta =
    entries.foldl (fun theta a => theta.addTimes 1 a.update) start.model.theta
  triggered_iff : ∀ v, v ∈ p.stats.triggeredUpdate ↔
    v ∈ start.stats.triggeredUpdate ∨ v ∈ entries.map Applied.visit

namespace Accounts

variable [Zero α] [One α] [Add α] [Mul α] {start p q : Progress S α}
  {entries entries' : List (Applied S α)}

theorem nil (htheta : p.model.theta = start.model.theta)
    (htriggered : p.stats.triggeredUpdate = start.stats.triggeredUpdate) :
    Accounts start [] p where
  theta_eq := htheta
  triggered_iff v := by simp [htriggered]

theorem append (h : Accounts start entries p) (h' : Accounts p entries' q) :
    Accounts start (entries ++ entries') q where
  theta_eq := by rw [List.foldl_append, ← h.theta_eq, h'.theta_eq]
  triggered_iff v := by
    rw [h'.triggered_iff, h.triggered_iff, List.map_append, List.mem_append, or_assoc]

theorem addUpdate (h : Accounts start [] p) (a : Applied S α) :
    Accounts start [a] ((p.addUpdate a.update).enter (.mark .update a.visit)) where
  theta_eq := by
    have htheta : p.model.theta = start.model.theta := h.theta_eq
    rw [List.foldl_cons, List.foldl_nil, ← htheta]
    rfl
  triggered_iff v := by
    have htriggered := h.triggered_iff v
    simp only [List.map_nil, List.not_mem_nil, or_false] at htriggered
    change v ∈ p.stats.triggeredUpdate.insert a.visit ↔ _
    rw [VisitSet.mem_insert, htriggered, List.map_singleton, List.mem_singleton, or_comm]

end Accounts

namespace Learner

variable [Zero α] [One α] [Add α] [Neg α] [Mul α] [Div α] [NatCast α] [LT α] [DecidableLT α] [LE α]
  [DecidableLE α] [BEq α] [OfScientific α] [ScoreRange α]

/-- The update that a task applies. -/
def applied? (l : Learner (StateM W) Item S L α) (s : Situation S α W) :
    Task Item → Option (Applied S α)
  | .beginEpoch _ => none
  | .visit item v =>
    if l.accepts item then
      match exec (l.outputs item) s with
      | (.error _, _) => none
      | (.ok (real, good), p, _) =>
        match proposedUpdate l.params (l.isValid item) real good p.model with
        | .ok (some update) => some ⟨v, p.model, update⟩
        | _ => none
    else none

/-- The updates that a run of tasks applies, in order.  The run ends with the first task that
fails. -/
def ledger (l : Learner (StateM W) Item S L α) :
    List (Task Item) → Situation S α W → List (Applied S α)
  | [], _ => []
  | t :: ts, s =>
    match exec (l.perform t) s with
    | (.ok _, s') => (l.applied? s t).toList ++ l.ledger ts s'
    | (.error _, _) => []

variable {l : Learner (StateM W) Item S L α} {g : Model S α → γ}

/-- The error is one that can end training. -/
def IsFatal (e : LearningError α) : Prop := IsParserFailure e ∨ ∃ update, e = .invalidUpdate update

/-- **All that a task can do.**  It fails, with a fatal error unless the number of epochs overflows;
it applies nothing; or it applies its update to a model that the parses before it have changed in
nothing but what the lexicon generator may change. -/
theorem perform_cases (hadopt : l.AdoptPreserves g) (t : Task Item) (s : Situation S α W) :
    ∃ p w, g p.model = g s.1.model ∧
      p.stats.triggeredUpdate = s.1.stats.triggeredUpdate ∧
      ((∃ e, exec (l.perform t) s = (.error e, p, w) ∧ (t.epoch < lastEpoch → IsFatal e)) ∨
        (exec (l.perform t) s = (.ok (), p, w) ∧ l.applied? s t = none) ∨
        ∃ a : Applied S α, l.applied? s t = some a ∧ t.visit? = some a.visit ∧ a.model = p.model ∧
          a.Proper ∧
          exec (l.perform t) s =
            (.ok (), (p.addUpdate a.update).enter (.mark .update a.visit), w)) := by
  cases t with
  | beginEpoch epoch =>
    rw [exec_beginEpoch]
    split_ifs with hepoch
    · exact ⟨s.1.enter (.beginEpoch epoch), s.2, rfl, rfl, .inr (.inl ⟨rfl, rfl⟩)⟩
    · exact ⟨s.1, s.2, rfl, rfl, .inl ⟨_, rfl, fun h => absurd h hepoch⟩⟩
  | visit item v =>
    rw [perform, applied?]
    by_cases haccepts : l.accepts item = true
    · rw [visit, if_pos haccepts, if_pos haccepts, exec_learnFrom]
      rcases hout : exec (l.outputs item) s with ⟨e | ⟨real, good⟩, p, w⟩
      · obtain ⟨hg, hstats⟩ := Prod.mk.inj ((consults_outputs.preserves hadopt).of_exec hout)
        exact ⟨p, w, hg, by rw [hstats],
          .inl ⟨e, rfl, fun _ => .inl (consults_outputs.isParserFailure hout)⟩⟩
      · obtain ⟨hg, hstats⟩ := Prod.mk.inj ((consults_outputs.preserves hadopt).of_exec hout)
        -- a valid parse may have been recorded in any case
        obtain ⟨recorded, q, hparse, hmodel, htriggered, hrecorded⟩ :=
          recordParse_spec l.params (l.isValid item) v real good p
        refine ⟨q, w, by rw [hmodel, hg], by rw [htriggered, hstats], ?_⟩
        simp only [hparse]
        obtain rfl | ⟨rfl, hlast⟩ := hrecorded
        case inr => exact .inl ⟨_, rfl, fun hepoch => absurd hepoch (Nat.not_lt_of_le hlast)⟩
        cases hproposed : proposedUpdate l.params (l.isValid item) real good p.model with
        | error e =>
          obtain ⟨update, he, -⟩ := of_proposedUpdate_eq_error hproposed
          exact .inl ⟨e, rfl, fun _ => .inr ⟨update, he⟩⟩
        | ok proposed =>
          cases proposed with
          | none => exact .inr (.inl ⟨rfl, rfl⟩)
          | some update =>
            obtain ⟨hadmits, hnoise⟩ := of_proposedUpdate_eq_some hproposed
            exact .inr (.inr ⟨⟨v, p.model, update⟩, rfl, rfl, hmodel.symm, ⟨hadmits, hnoise⟩, rfl⟩)
    · rw [exec_visit_of_rejects haccepts, if_neg haccepts]
      split_ifs with hepoch
      · exact ⟨s.1.enter (.mark .skipped v), s.2, rfl, rfl, .inr (.inl ⟨rfl, rfl⟩)⟩
      · exact ⟨s.1, s.2, rfl, rfl, .inl ⟨_, rfl, fun h => absurd h hepoch⟩⟩

variable {s s' : Situation S α W} {t : Task Item} {ts : List (Task Item)}

theorem perform_cases_of_ok (hadopt : l.AdoptPreserves g)
    (h : exec (l.perform t) s = (.ok (), s')) :
    ∃ p w, g p.model = g s.1.model ∧ p.stats.triggeredUpdate = s.1.stats.triggeredUpdate ∧
      ((l.applied? s t = none ∧ s' = (p, w)) ∨ ∃ a, l.applied? s t = some a ∧
        s' = ((p.addUpdate a.update).enter (.mark .update a.visit), w)) := by
  obtain ⟨p, w, hg, htriggered, hcases⟩ := perform_cases hadopt t s
  refine ⟨p, w, hg, htriggered, ?_⟩
  rcases hcases with ⟨e, hfail, -⟩ | ⟨hok, hnone⟩ | ⟨a, ha, -, -, -, hok⟩
  · rw [hfail] at h
    cases h
  · rw [hok] at h
    exact .inl ⟨hnone, (Prod.mk.inj h).2.symm⟩
  · rw [hok] at h
    exact .inr ⟨a, ha, (Prod.mk.inj h).2.symm⟩

theorem of_applied?_eq_some (hadopt : l.AdoptPreserves g) {a : Applied S α}
    (hok : exec (l.perform t) s = (.ok (), s')) (h : l.applied? s t = some a) :
    t.visit? = some a.visit ∧ a.Proper ∧ g a.model = g s.1.model := by
  obtain ⟨p, w, hg, -, hcases⟩ := perform_cases hadopt t s
  rcases hcases with ⟨e, hfail, -⟩ | ⟨-, hnone⟩ | ⟨b, hb, hvisit, hmodel, hproper, -⟩
  · rw [hfail] at hok
    cases hok
  · simp [hnone] at h
  · rw [hb, Option.some.injEq] at h
    subst h
    exact ⟨hvisit, hproper, by rw [hmodel, hg]⟩

/-! ### Runs -/

theorem ledger_cons_of_ok (h : exec (l.perform t) s = (.ok (), s')) (ts : List (Task Item)) :
    l.ledger (t :: ts) s = (l.applied? s t).toList ++ l.ledger ts s' := by
  rw [ledger, h]

theorem ledger_append_of_ok (h : exec (l.performAll ts) s = (.ok (), s'))
    (us : List (Task Item)) : l.ledger (ts ++ us) s = l.ledger ts s ++ l.ledger us s' := by
  induction ts generalizing s with
  | nil =>
    cases h
    rfl
  | cons t ts ih =>
    obtain ⟨s₁, ht, hts⟩ := exists_of_performAll_cons_ok h
    rw [List.cons_append, ledger_cons_of_ok ht, ledger_cons_of_ok ht, ih hts, List.append_assoc]

theorem ledger_append_of_error (h : exec (l.performAll ts) s = (.ok (), s'))
    {e : LearningError α} {s₁ : Situation S α W} (ht : exec (l.perform t) s' = (.error e, s₁))
    (rest : List (Task Item)) : l.ledger (ts ++ t :: rest) s = l.ledger ts s := by
  rw [ledger_append_of_ok h, ledger, ht, List.append_nil]

theorem accounts_of_perform (hadopt : l.AdoptPreserves Model.theta)
    (h : exec (l.perform t) s = (.ok (), s')) : Accounts s.1 (l.applied? s t).toList s'.1 := by
  obtain ⟨p, w, htheta, htriggered, ⟨hnone, rfl⟩ | ⟨a, ha, rfl⟩⟩ := perform_cases_of_ok hadopt h
  · rw [hnone]
    exact .nil htheta htriggered
  · rw [ha]
    exact (Accounts.nil htheta htriggered).addUpdate a

/-- **The weights after a run are the initial ones with the applied updates.** -/
theorem accounts_of_performAll (hadopt : l.AdoptPreserves Model.theta)
    (h : exec (l.performAll ts) s = (.ok (), s')) : Accounts s.1 (l.ledger ts s) s'.1 := by
  induction ts generalizing s with
  | nil =>
    cases h
    exact .nil rfl rfl
  | cons t ts ih =>
    obtain ⟨s₁, ht, hts⟩ := exists_of_performAll_cons_ok h
    rw [ledger_cons_of_ok ht]
    exact (accounts_of_perform hadopt ht).append (ih hts)

/-- **The recorded updates after a run are those before it and those of the ledger**, whatever the
lexicon generator does to the model. -/
theorem triggered_iff_of_performAll (h : exec (l.performAll ts) s = (.ok (), s')) (v : Visit) :
    v ∈ s'.1.stats.triggeredUpdate ↔
      v ∈ s.1.stats.triggeredUpdate ∨ v ∈ (l.ledger ts s).map Applied.visit := by
  induction ts generalizing s with
  | nil =>
    cases h
    change v ∈ s.1.stats.triggeredUpdate ↔ _
    simp [ledger]
  | cons t ts ih =>
    obtain ⟨s₁, ht, hts⟩ := exists_of_performAll_cons_ok h
    rw [ih hts, ledger_cons_of_ok ht, List.map_append, List.mem_append, ← or_assoc]
    obtain ⟨p, w, -, htriggered, ⟨hnone, rfl⟩ | ⟨a, ha, rfl⟩⟩ :=
      perform_cases_of_ok (l.adoptPreserves_const ()) ht
    · simp [htriggered, hnone]
    · simp [Progress.enter, Progress.addUpdate, LearningStats.enter, LearningStats.addMark,
        htriggered, ha, or_comm]

/-- **A task that fails changes nothing in the model but what the lexicon generator may change**,
and records no update. -/
theorem of_perform_error (hadopt : l.AdoptPreserves g) {e : LearningError α}
    (h : exec (l.perform t) s = (.error e, s')) :
    (t.epoch < lastEpoch → IsFatal e) ∧ g s'.1.model = g s.1.model ∧
      s'.1.stats.triggeredUpdate = s.1.stats.triggeredUpdate := by
  obtain ⟨p, w, hkept, htriggered, hcases⟩ := perform_cases hadopt t s
  rcases hcases with ⟨e', hfail, hfatal⟩ | ⟨hok, -⟩ | ⟨a, -, -, -, -, hok⟩
  · rw [hfail] at h
    cases h
    exact ⟨hfatal, hkept, htriggered⟩
  · rw [hok] at h
    cases h
  · rw [hok] at h
    cases h

theorem mem_ledger_cons {a : Applied S α} (h : a ∈ l.ledger (t :: ts) s) :
    ∃ s₁, exec (l.perform t) s = (.ok (), s₁) ∧ (l.applied? s t = some a ∨ a ∈ l.ledger ts s₁) := by
  rw [ledger] at h
  split at h
  · next u s₁ ht =>
    rw [List.mem_append, Option.mem_toList] at h
    exact ⟨s₁, ht, h⟩
  · simp at h

theorem proper_of_mem_ledger {a : Applied S α} (h : a ∈ l.ledger ts s) : a.Proper := by
  induction ts generalizing s with
  | nil => simp [ledger] at h
  | cons t ts ih =>
    obtain ⟨s₁, ht, ha | ha⟩ := mem_ledger_cons h
    · exact (of_applied?_eq_some (l.adoptPreserves_const ()) ht ha).2.1
    · exact ih ha

/-- The visits of a ledger are among those of the tasks, in the same order. -/
theorem visits_ledger_sublist (ts : List (Task Item)) (s : Situation S α W) :
    ((l.ledger ts s).map Applied.visit).Sublist (ts.filterMap Task.visit?) := by
  induction ts generalizing s with
  | nil => exact .slnil
  | cons t ts ih =>
    rw [ledger]
    split
    · next u s₁ ht =>
      have hhead : ((l.applied? s t).toList.map Applied.visit).Sublist t.visit?.toList := by
        cases ha : l.applied? s t with
        | none => exact List.nil_sublist _
        | some a =>
          rw [(of_applied?_eq_some (l.adoptPreserves_const ()) ht ha).1]
          exact List.Sublist.refl _
      have hcons : (t :: ts).filterMap Task.visit? =
          t.visit?.toList ++ ts.filterMap Task.visit? := by
        cases h : t.visit? <;> simp [h]
      rw [List.map_append, hcons]
      exact hhead.append (ih s₁)
    · exact List.nil_sublist _

end Learner

end LogicalForms
