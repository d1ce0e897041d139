import LogicalForms.Proofs.Features.Noise
import LogicalForms.Proofs.Learning.Accounts

/-!
# Pinned weights never move

An update may have zeros at pinned keys, but noise is dropped before it is checked, so an update that
is admitted has no entries there (`Applied.Proper.get?_eq_none_of_isPinned`).  Adding it makes no
entry and changes none, and that goes for a whole run whether it succeeds or fails
(`Learner.train_isPinned`).
-/

namespace LogicalForms

variable {Item S L α γ W : Type}

theorem Model.beq_zero_of_admitsUpdate [Zero α] [BEq α] {model : Model S α}
    {update : FeatureVector α} {k : FeatureKey} {x : α} (h : model.admitsUpdate update = true)
    (hk : model.isPinned k = true) (hx : update.get? k = some x) : (x == 0) = true := by
  rw [admitsUpdate, Bool.and_eq_true, List.all_eq_true] at h
  have hentry := h.1 (k, x) (FeatureVector.get?_eq_some_iff.1 hx)
  simpa [hk] using hentry

theorem Model.accepts_of_admitsUpdate [Zero α] [BEq α] {model : Model S α}
    {update : FeatureVector α} {fs : FeatureSet S α} (h : model.admitsUpdate update = true)
    (hfs : fs ∈ model.featureSets) : fs.accepts update = true := by
  rw [admitsUpdate, Bool.and_eq_true, List.all_eq_true, List.all_eq_true] at h
  exact h.2 fs hfs

/-- **What is added has no entries at pinned keys.** -/
theorem Applied.Proper.get?_eq_none_of_isPinned [Zero α] [Neg α] [LT α] [DecidableLT α] [LE α]
    [BEq α] [OfScientific α] [NoisyZero α] {a : Applied S α} (h : a.Proper) {k : FeatureKey}
    (hk : a.model.isPinned k = true) : a.update.get? k = none := by
  rw [Option.eq_none_iff_forall_ne_some]
  intro x hx
  have hzero : (x == 0) = true := Model.beq_zero_of_admitsUpdate h.admitted hk hx
  exact NoisyZero.not_noise_le x hzero (h.noise_le k x hx)

theorem get?_foldl_addTimes_of_forall_eq_none [Zero α] [One α] [Add α] [Mul α]
    {entries : List (Applied S α)} {k : FeatureKey} (h : ∀ a ∈ entries, a.update.get? k = none)
    (theta : FeatureVector α) :
    (entries.foldl (fun theta a => theta.addTimes 1 a.update) theta).get? k = theta.get? k := by
  induction entries generalizing theta with
  | nil => rfl
  | cons a entries ih =>
    obtain ⟨ha, hentries⟩ := List.forall_mem_cons.1 h
    rw [List.foldl_cons, ih hentries, FeatureVector.get?_addTimes, ha]

namespace Learner

variable [Zero α] [One α] [Add α] [Neg α] [Mul α] [Div α] [NatCast α] [LT α] [DecidableLT α] [LE α]
  [DecidableLE α] [BEq α] [OfScientific α] [ScoreRange α]
  {l : Learner (StateM W) Item S L α} {g : Model S α → γ}
  {s s' : Situation S α W} {t : Task Item} {ts : List (Task Item)} {a : Applied S α}

theorem theta_performAll (hadopt : l.AdoptPreserves Model.theta) (ts : List (Task Item))
    (s : Situation S α W) :
    (exec (l.performAll ts) s).2.1.model.theta =
      (l.ledger ts s).foldl (fun theta a => theta.addTimes 1 a.update) s.1.model.theta := by
  rcases hrun : exec (l.performAll ts) s with ⟨e | u, s'⟩
  · obtain ⟨done, t, rest, s₁, rfl, hdone, ht⟩ := exists_of_performAll_error hrun
    -- the task that fails adds nothing, so the weights are those before it
    obtain ⟨-, htheta, -⟩ := of_perform_error hadopt ht
    rw [ledger_append_of_error hdone ht, ← (accounts_of_performAll hadopt hdone).theta_eq]
    exact htheta
  · exact (accounts_of_performAll hadopt hrun).theta_eq

/-! ### What no update touches -/

/-- The value of `g` does not depend on the weights. -/
def IgnoresTheta (g : Model S α → γ) : Prop :=
  ∀ (model : Model S α) (theta : FeatureVector α), g { model with theta := theta } = g model

theorem of_perform_ok (hadopt : l.AdoptPreserves g) (hg : IgnoresTheta g)
    (h : exec (l.perform t) s = (.ok (), s')) : g s'.1.model = g s.1.model := by
  obtain ⟨p, w, hkept, -, ⟨-, rfl⟩ | ⟨a, -, rfl⟩⟩ := perform_cases_of_ok hadopt h
  · exact hkept
  · exact (hg p.model _).trans hkept

/-- **All updates of a run meet a model that is the starting one, but for its weights and what the
lexicon generator may change.** -/
theorem of_mem_ledger (hadopt : l.AdoptPreserves g) (hg : IgnoresTheta g) (h : a ∈ l.ledger ts s) :
    g a.model = g s.1.model := by
  induction ts generalizing s with
  | nil => simp [ledger] at h
  | cons t ts ih =>
    obtain ⟨s₁, ht, ha | ha⟩ := mem_ledger_cons h
    · exact (of_applied?_eq_some hadopt ht ha).2.2
    · exact (ih ha).trans (of_perform_ok hadopt hg ht)

theorem get?_theta_performAll_of_isPinned [NoisyZero α] (htheta : l.AdoptPreserves Model.theta)
    (hpinned : l.AdoptPreserves Model.isPinned) (ts : List (Task Item)) {k : FeatureKey}
    (hk : s.1.model.isPinned k = true) :
    (exec (l.performAll ts) s).2.1.model.theta.get? k = s.1.model.theta.get? k := by
  rw [theta_performAll htheta]
  refine get?_foldl_addTimes_of_forall_eq_none (fun a ha => ?_) _
  have hmodel : a.model.isPinned = s.1.model.isPinned :=
    of_mem_ledger hpinned (fun _ _ => rfl) ha
  exact (proper_of_mem_ledger ha).get?_eq_none_of_isPinned (hmodel ▸ hk)

/-- **Pinned weights never move**, whether training succeeds or fails, and every vector that it adds
to the weights was accepted by every feature set that the model had by then. -/
theorem train_isPinned (l : Learner (StateM W) Item S L Float)
    (htheta : l.AdoptPreserves Model.theta) (hpinned : l.AdoptPreserves Model.isPinned)
    (items : List Item) (model : Model S Float) (w : W) :
    let trained := ((l.train items model).run w).1.2
    let entries := l.ledger (l.tasks items) (⟨model, {}⟩, w)
    (∀ k, model.isPinned k = true → trained.theta.get? k = model.theta.get? k) ∧
      trained.theta = entries.foldl (fun theta a => theta.addTimes 1 a.update) model.theta ∧
      ∀ a ∈ entries, ∀ fs ∈ a.model.featureSets, fs.accepts a.update = true := by
  intro trained entries
  have htrained : trained =
      (exec (l.performAll (l.tasks items)) (⟨model, {}⟩, w)).2.1.model := by
    change ((l.train items model).run w).1.2 = _
    rw [train_eq]
  refine ⟨fun k hk => ?_, ?_, fun a ha fs hfs => ?_⟩
  · rw [htrained]
    exact get?_theta_performAll_of_isPinned htheta hpinned (l.tasks items) hk
  · rw [htrained]
    exact theta_performAll htheta (l.tasks items) _
  · exact Model.accepts_of_admitsUpdate (proper_of_mem_ledger ha).admitted hfs

/-- Both readings have the pinned feature, and training fails after the first item. -/
theorem train_isPinned_brittle :
    let model : Model Bool Float :=
      { theta := .ofList [(⟨"bias"⟩, 3)], featureSets := [.bounded 1], pinned := [⟨"bias"⟩] }
    let trained := (((brittleLearner Float).train [true, false] model).run ()).1
    trained.1.toBool = false ∧ trained.2.theta.weight ⟨"right"⟩ = 1 ∧
      trained.2.theta.get? ⟨"bias"⟩ = some 3 := by
  intro model trained
  refine ⟨by decide +kernel, by decide +kernel, ?_⟩
  have hpinned : model.isPinned ⟨"bias"⟩ = true := by decide
  exact (train_isPinned (brittleLearner Float) (adoptPreserves_brittleLearner _)
    (adoptPreserves_brittleLearner _) [true, false] model ()).1 ⟨"bias"⟩ hpinned

end Learner

end LogicalForms
