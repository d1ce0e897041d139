import LogicalForms.Proofs.Features.Arithmetic
import LogicalForms.Proofs.Learning.Ledger
import Mathlib.Algebra.Field.Rat

/-!
# The accounts of training

With exact numbers, the weights at every point of training are the initial weights plus the updates
that have been recorded, one for each recorded visit; when training fails, the visit that fails adds
nothing (`Learner.train_accounts`).

The points are those between two tasks, those between the parses of a visit, and the one where a
visit fails (`Learner.Point`).
-/

namespace LogicalForms

variable {Item S L α γ W : Type}

namespace Learner

section Points

variable [Zero α] [One α] [Add α] [Neg α] [Mul α] [Div α] [NatCast α] [LT α] [DecidableLT α] [LE α]
  [DecidableLE α] [BEq α] [OfScientific α] [ScoreRange α]

/-- The progress at a point of training on `items`, and the tasks that are done there. -/
inductive Point (l : Learner (StateM W) Item S L α) (items : List Item) (start : Situation S α W) :
    List (Task Item) → Progress S α → Prop where
  /-- Between two tasks, before the first and after the last. -/
  | between {done rest : List (Task Item)} {s : Situation S α W} :
    l.tasks items = done ++ rest → exec (l.performAll done) start = (.ok (), s) →
    Point l items start done s.1
  /-- In a visit, after lexical induction. -/
  | induced {done rest : List (Task Item)} {item : Item} {v : Visit} {s s' : Situation S α W}
      {r : Except (LearningError α) (Induction α)} :
    l.tasks items = done ++ .visit item v :: rest → exec (l.performAll done) start = (.ok (), s) →
    l.accepts item = true → exec (l.induce item) s = (r, s') → Point l items start done s'.1
  /-- In a visit, after the unbiased parse. -/
  | parsed {done rest : List (Task Item)} {item : Item} {v : Visit} {s s' : Situation S α W}
      {r : Except (LearningError α) (Induction α × ParserOutput α)} :
    l.tasks items = done ++ .visit item v :: rest → exec (l.performAll done) start = (.ok (), s) →
    l.accepts item = true → exec (l.realOutput item) s = (r, s') → Point l items start done s'.1
  /-- In a visit, after both parses. -/
  | parsedTwice {done rest : List (Task Item)} {item : Item} {v : Visit} {s s' : Situation S α W}
      {r : Except (LearningError α) (ParserOutput α × ParserOutput α)} :
    l.tasks items = done ++ .visit item v :: rest → exec (l.performAll done) start = (.ok (), s) →
    l.accepts item = true → exec (l.outputs item) s = (r, s') → Point l items start done s'.1
  /-- Where a visit fails. -/
  | failed {done rest : List (Task Item)} {item : Item} {v : Visit} {s s' : Situation S α W}
      {e : LearningError α} :
    l.tasks items = done ++ .visit item v :: rest → exec (l.performAll done) start = (.ok (), s) →
    exec (l.visit item v) s = (.error e, s') → Point l items start done s'.1

variable {l : Learner (StateM W) Item S L α} {items : List Item} {start : Situation S α W}
  {done : List (Task Item)} {p : Progress S α}

/-- **At every point the accounts are those of the tasks that are done.** -/
theorem Point.accounts (h : l.Point items start done p) (hadopt : l.AdoptPreserves Model.theta) :
    Accounts start.1 (l.ledger done start) p := by
  -- what was done since the last task has added nothing yet
  have hframe : ∀ {s s' : Situation S α W},
      exec (l.performAll done) start = (.ok (), s) →
      (s'.1.model.theta = s.1.model.theta ∧
        s'.1.stats.triggeredUpdate = s.1.stats.triggeredUpdate) →
      Accounts start.1 (l.ledger done start) s'.1 := by
    rintro s s' hdone ⟨htheta, htriggered⟩
    have := (accounts_of_performAll hadopt hdone).append (.nil htheta htriggered)
    rwa [List.append_nil] at this
  have hparses : ∀ {s s' : Situation S α W},
      (s'.1.model.theta, s'.1.stats) = (s.1.model.theta, s.1.stats) →
      s'.1.model.theta = s.1.model.theta ∧
        s'.1.stats.triggeredUpdate = s.1.stats.triggeredUpdate := by
    intro s s' hkept
    obtain ⟨htheta, hstats⟩ := Prod.mk.inj hkept
    exact ⟨htheta, by rw [hstats]⟩
  cases h with
  | between _ hdone => exact accounts_of_performAll hadopt hdone
  | induced _ hdone _ hs =>
    exact hframe hdone (hparses ((consults_induce.preserves hadopt).of_exec hs))
  | parsed _ hdone _ hs =>
    exact hframe hdone (hparses ((consults_realOutput.preserves hadopt).of_exec hs))
  | parsedTwice _ hdone _ hs =>
    exact hframe hdone (hparses ((consults_outputs.preserves hadopt).of_exec hs))
  | failed _ hdone hs => exact hframe hdone (of_perform_error hadopt (t := .visit _ _) hs).2

theorem Point.exists_tasks_eq (h : l.Point items start done p) :
    ∃ rest, l.tasks items = done ++ rest := by
  cases h with
  | between htasks => exact ⟨_, htasks⟩
  | induced htasks => exact ⟨_, htasks⟩
  | parsed htasks => exact ⟨_, htasks⟩
  | parsedTwice htasks => exact ⟨_, htasks⟩
  | failed htasks => exact ⟨_, htasks⟩

theorem Point.nodup (h : l.Point items start done p) :
    ((l.ledger done start).map Applied.visit).Nodup := by
  obtain ⟨rest, htasks⟩ := h.exists_tasks_eq
  have hnodup : ((done ++ rest).filterMap Task.visit?).Nodup :=
    htasks ▸ nodup_visits_schedule items 0 l.params.epochs.toNat
  rw [List.filterMap_append, List.nodup_append] at hnodup
  exact (visits_ledger_sublist done start).nodup hnodup.1

end Points

/-! ### Exact numbers -/

/-- The progress `p` of a training that started with `model` and applied `entries`: the weights are
the initial ones plus the updates, the recorded visits are those of the updates, each once, and the
updates are proper. -/
structure Balanced (model : Model S ℚ) (entries : List (Applied S ℚ)) (p : Progress S ℚ) : Prop where
  weight_eq : ∀ k, p.model.theta.weight k =
    model.theta.weight k + (entries.map fun a => a.update.weight k).sum
  triggered_iff : ∀ v, v ∈ p.stats.triggeredUpdate ↔ v ∈ entries.map Applied.visit
  nodup : (entries.map Applied.visit).Nodup
  proper : ∀ a ∈ entries, a.Proper

section Exact

variable [ScoreRange ℚ]

theorem Point.balanced {l : Learner (StateM W) Item S L ℚ} {items : List Item} {model : Model S ℚ}
    {w : W} {done : List (Task Item)} {p : Progress S ℚ}
    (h : l.Point items (⟨model, {}⟩, w) done p) (hadopt : l.AdoptPreserves Model.theta) :
    Balanced model (l.ledger done (⟨model, {}⟩, w)) p := by
  have haccounts := h.accounts hadopt
  constructor
  case weight_eq =>
    intro k
    rw [haccounts.theta_eq, FeatureVector.weight_foldl_addTimes, one_mul]
  case triggered_iff =>
    intro v
    rw [haccounts.triggered_iff]
    simp [VisitSet.not_mem_empty]
  case nodup => exact h.nodup
  case proper => exact fun a ha => proper_of_mem_ledger ha

/-- **At every point of training the books balance.**  If training succeeds, its result is the last
point.  If it fails, it does so in one visit, for a reason that the parser or the model gave, and
the weights and the recorded updates are those before this visit. -/
theorem train_accounts (l : Learner (StateM W) Item S L ℚ)
    (hadopt : l.AdoptPreserves Model.theta) (items : List Item) (model : Model S ℚ) (w : W) :
    (∀ done p, l.Point items (⟨model, {}⟩, w) done p →
      Balanced model (l.ledger done (⟨model, {}⟩, w)) p) ∧
    match (l.train items model).run w with
    | ((.ok stats, model'), _) =>
      l.Point items (⟨model, {}⟩, w) (l.tasks items) ⟨model', stats⟩
    | ((.error e, model'), w') =>
      IsFatal e ∧ ∃ done item v rest s p,
        l.tasks items = done ++ .visit item v :: rest ∧
        exec (l.performAll done) (⟨model, {}⟩, w) = (.ok (), s) ∧
        exec (l.visit item v) s = (.error e, p, w') ∧ model' = p.model ∧
        p.model.theta = s.1.model.theta ∧ p.stats.triggeredUpdate = s.1.stats.triggeredUpdate := by
  refine ⟨fun done p h => h.balanced hadopt, ?_⟩
  rw [train_eq]
  rcases hrun : exec (l.performAll (l.tasks items)) (⟨model, {}⟩, w) with ⟨e | u, p, w'⟩
  · obtain ⟨done, t, rest, s, htasks, hdone, ht⟩ := exists_of_performAll_error hrun
    obtain ⟨hfatal, htheta, htriggered⟩ := of_perform_error hadopt ht
    have htask : t ∈ l.tasks items := by simp [htasks]
    have hepoch : t.epoch < lastEpoch := epoch_lt_of_mem_tasks htask
    cases t with
    | beginEpoch epoch =>
      have hbegin := (exec_beginEpoch (l := l) epoch s).trans (if_pos hepoch)
      rw [hbegin] at ht
      cases ht
    | visit item v =>
      exact ⟨hfatal hepoch, done, item, v, rest, s, p, htasks, hdone, ht, rfl, htheta, htriggered⟩
  · exact .between (List.append_nil _).symm hrun

end Exact

/-! ### A training that fails -/

/-- No rational number is −∞; the lowest score is that of the doubles. -/
instance instScoreRangeRat : ScoreRange ℚ := ⟨fun _ => false, -(2 ^ 1024 - 2 ^ 971)⟩

section Brittle

variable [Zero α] [One α]

/-- A reading with two features: one that all readings have, and one named like its constant. -/
def brittleReading (name : String) : Derivation α :=
  .single (.const ⟨name, .atom "t"⟩) 0 (.ofList [(⟨"bias"⟩, 1), (⟨name⟩, 1)])

/-- Has a right and a wrong reading for the sample `true`, and fails on `false`. -/
def brittleParser : Parser (StateM Unit) Bool Unit α where
  parse sample _ request :=
    if sample then
      let readings := [brittleReading "right", brittleReading "wrong"]
      return .ok ⟨readings.filter fun d => request.admits d.semantics, true⟩
    else return .error "no parse"

variable (α) in
/-- A learner with this parser. -/
def brittleLearner : Learner (StateM Unit) Bool Bool Unit α where
  params := { Params.standard with epochs := 1 }
  sample := id
  parser := brittleParser
  isValid _ t := t = .const ⟨"right", .atom "t"⟩
  observe _ _ := return

theorem adoptPreserves_brittleLearner (g : Model Bool α → γ) :
    (brittleLearner α).AdoptPreserves g := by
  intro generator h
  cases h

end Brittle

/-- The tasks before the one that fails. -/
def brittleDone : List (Task Bool) := [.beginEpoch 0, .visit true ⟨0, 0⟩]

theorem train_accounts_brittle :
    let start : Situation Bool ℚ Unit := (⟨{}, {}⟩, ())
    let entries := (brittleLearner ℚ).ledger brittleDone start
    let p := (exec ((brittleLearner ℚ).performAll brittleDone) start).2.1
    (brittleLearner ℚ).AdoptPreserves Model.theta ∧ entries.map Applied.visit = [⟨0, 0⟩] ∧
      p.model.theta.weight ⟨"right"⟩ = 1 ∧ Balanced {} entries p := by
  intro start entries p
  refine ⟨adoptPreserves_brittleLearner _, by decide +kernel, by decide +kernel, ?_⟩
  refine (train_accounts (brittleLearner ℚ) (adoptPreserves_brittleLearner _) [true, false] {} ()).1
    brittleDone p ?_
  have htasks : (brittleLearner ℚ).tasks [true, false] = brittleDone ++ [.visit false ⟨1, 0⟩] := rfl
  have hok : (exec ((brittleLearner ℚ).performAll brittleDone) start).1.toBool = true := by
    decide +kernel
  refine .between htasks ?_
  rcases hrun : exec ((brittleLearner ℚ).performAll brittleDone) start with ⟨e | u, s⟩
  · rw [hrun] at hok
    cases hok
  · rfl

end Learner

end LogicalForms
