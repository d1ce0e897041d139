import LogicalForms.Learning.Training
import Mathlib.Tactic.Common

/-!
# Steps of training

Training is followed step by step with collaborators — parser, lexicon generator, observer — that
have a world `W` of their own.  Collaborators that are functions of their arguments take no notice
of it.

* `exec` runs a step from a situation, which is the progress of the learner and the world.
* `Learner.Consults` are the steps that are made of calls of the collaborators, as parsing and
  lexical induction are (`Learner.consults_outputs`).
* Such a step leaves alone what the lexicon generator leaves alone (`Learner.Consults.preserves`),
  only fails when the parser does (`Learner.Consults.isParserFailure`), and takes no notice of the
  statistics (`Learner.Consults.oblivious`), nor of the world if the collaborators take none
  (`Learner.Consults.steady`).
-/

namespace LogicalForms

variable {m : Type → Type} {Item S L α β γ δ W : Type}

/-- The progress of the learner, and the world of its collaborators. -/
abbrev Situation (S α W : Type) := Progress S α × W

/-- Runs a step: the result or the error, and the situation after it. -/
def exec (x : Training (StateM W) S α β) (s : Situation S α W) :
    Except (LearningError α) β × Situation S α W :=
  let r := (x.run.run s.1).run s.2
  (r.1.1, r.1.2, r.2)

@[simp] theorem exec_pure (b : β) (s : Situation S α W) :
    exec (pure b : Training (StateM W) S α β) s = (.ok b, s) := rfl

@[simp] theorem exec_throw (e : LearningError α) (s : Situation S α W) :
    exec (throw e : Training (StateM W) S α β) s = (.error e, s) := rfl

@[simp] theorem exec_get (s : Situation S α W) :
    exec (get : Training (StateM W) S α _) s = (.ok s.1, s) := rfl

@[simp] theorem exec_modify (f : Progress S α → Progress S α) (s : Situation S α W) :
    exec (modify f : Training (StateM W) S α _) s = (.ok ⟨⟩, f s.1, s.2) := rfl

theorem exec_bind (x : Training (StateM W) S α β) (f : β → Training (StateM W) S α γ)
    (s : Situation S α W) :
    exec (x >>= f) s =
      match exec x s with
      | (.ok b, s') => exec (f b) s'
      | (.error e, s') => (.error e, s') := by
  obtain ⟨p, w⟩ := s
  unfold exec
  rw [ExceptT.run_bind, StateT.run_bind, StateT.run_bind]
  rcases (x.run.run p).run w with ⟨⟨r, p'⟩, w'⟩
  cases r <;> rfl

theorem exec_bind_of_ok {x : Training (StateM W) S α β} {f : β → Training (StateM W) S α γ}
    {s s' : Situation S α W} {b : β} (h : exec x s = (.ok b, s')) :
    exec (x >>= f) s = exec (f b) s' := by
  rw [exec_bind, h]

theorem exec_record (f : LearningStats → Option LearningStats) (s : Situation S α W) :
    exec (Training.record f) s = ((s.1.record f).1, (s.1.record f).2, s.2) := by
  rw [Training.record, exec_bind, exec_get]
  rcases hrecord : s.1.record f with ⟨_ | _, q⟩
  all_goals
    simp only [hrecord]
    rfl

/-! ### What a step leaves alone -/

/-- Whether it fails or not, the step leaves the value of `f` alone. -/
def Preserves (f : Progress S α → γ) (x : Training (StateM W) S α β) : Prop :=
  ∀ s, f (exec x s).2.1 = f s.1

namespace Preserves

variable {f : Progress S α → γ}

theorem of_exec {x : Training (StateM W) S α β} (hx : Preserves f x) {s s' : Situation S α W}
    {r : Except (LearningError α) β} (h : exec x s = (r, s')) : f s'.1 = f s.1 := by
  have := hx s
  rwa [h] at this

theorem bind {x : Training (StateM W) S α β} {k : β → Training (StateM W) S α δ}
    (hx : Preserves f x) (hk : ∀ b, Preserves f (k b)) : Preserves f (x >>= k) := by
  intro s
  rw [exec_bind]
  rcases hs : exec x s with ⟨r, s'⟩
  have hs' : f s'.1 = f s.1 := hx.of_exec hs
  cases r with
  | error e => exact hs'
  | ok b => exact (hk b s').trans hs'

end Preserves

/-- The step takes no notice of the statistics: how it ends, and which model and world it leaves
behind, does not depend on them, and it leaves them alone. -/
def Oblivious (x : Training (StateM W) S α β) : Prop :=
  ∀ model w, ∃ r model' w', ∀ stats, exec x (⟨model, stats⟩, w) = (r, ⟨model', stats⟩, w')

theorem Oblivious.liftM (x : StateM W β) : Oblivious (liftM x : Training (StateM W) S α β) :=
  fun model w => ⟨.ok (x.run w).1, model, (x.run w).2, fun _ => rfl⟩

/-- The answer is the same in every world. -/
def AnswersAlike (x : StateM W β) : Prop := ∀ w w', (x.run w).1 = (x.run w').1

/-- How the step ends and what progress it leaves is the same in every world. -/
def Steady (x : Training (StateM W) S α β) : Prop :=
  ∀ p w w', (exec x (p, w)).1 = (exec x (p, w')).1 ∧ (exec x (p, w)).2.1 = (exec x (p, w')).2.1

theorem AnswersAlike.steady_liftM {x : StateM W β} (hx : AnswersAlike x) :
    Steady (liftM x : Training (StateM W) S α β) :=
  fun _ w w' => ⟨congrArg Except.ok (hx w w'), rfl⟩

/-! ### Calls of the collaborators -/

namespace Learner

/-- The lexicon generator, if there is one, leaves the value of `g` alone. -/
def AdoptPreserves (l : Learner (StateM W) Item S L α) (g : Model S α → γ) : Prop :=
  ∀ generator, l.generator = some generator → ∀ item ds model w,
    g ((generator.adopt item ds model).run w).1 = g model

theorem adoptPreserves_const (l : Learner (StateM W) Item S L α) (c : γ) :
    l.AdoptPreserves fun _ => c := fun _ _ _ _ _ _ => rfl

/-- The error is a failure of the parser. -/
def IsParserFailure (e : LearningError α) : Prop := ∃ cause, e = .parserFailure cause

/-- Steps that are made of calls of the collaborators.  They may look at the model, fail when the
parser fails, and let the lexicon generator adopt entries. -/
inductive Consults (l : Learner (StateM W) Item S L α) :
    {β : Type} → Training (StateM W) S α β → Prop where
  /-- There is nothing more to do. -/
  | pure {β : Type} (b : β) : Consults l (pure b : Training (StateM W) S α β)
  /-- The parser has failed. -/
  | fail {β : Type} (cause : String) :
    Consults l (throw (.parserFailure cause) : Training (StateM W) S α β)
  /-- A sample is parsed. -/
  | parse (sample : S) (model : Model S α) (request : ParseRequest L) :
    Consults l (liftM (l.parser.parse sample model request) : Training (StateM W) S α _)
  /-- An output is shown. -/
  | observe (item : Item) (output : ParserOutput α) :
    Consults l (liftM (l.observe item output) : Training (StateM W) S α _)
  /-- Lexical entries are proposed. -/
  | generate {generator : LexiconGenerator (StateM W) Item S L α}
      (hset : l.generator = some generator) (item : Item) (model : Model S α) :
    Consults l (liftM (generator.generate item model) : Training (StateM W) S α _)
  /-- Of the progress, only the model is looked at. -/
  | look {β : Type} {k : Progress S α → Training (StateM W) S α β} (hk : ∀ p, Consults l (k p))
      (hmodel : ∀ p stats, k { p with stats := stats } = k p) : Consults l (get >>= k)
  /-- The lexicon generator adopts entries. -/
  | adopt {β : Type} {generator : LexiconGenerator (StateM W) Item S L α}
      (hset : l.generator = some generator) (item : Item) (ds : List (Derivation α))
      {x : Training (StateM W) S α β} (hx : Consults l x) :
    Consults l (do
      let model ← (generator.adopt item ds (← get).model : StateM W _)
      modify fun p => { p with model := model }
      x)
  /-- One step comes after the other. -/
  | bind {β γ : Type} {x : Training (StateM W) S α β} {k : β → Training (StateM W) S α γ}
      (hx : Consults l x) (hk : ∀ b, Consults l (k b)) : Consults l (x >>= k)

variable {l : Learner (StateM W) Item S L α} {item : Item}

theorem exec_adopt (generator : LexiconGenerator (StateM W) Item S L α) (item : Item)
    (ds : List (Derivation α)) (x : Training (StateM W) S α β) (s : Situation S α W) :
    exec (do
      let model ← (generator.adopt item ds (← get).model : StateM W _)
      modify fun p => { p with model := model }
      x : Training (StateM W) S α β) s =
      exec x (⟨((generator.adopt item ds s.1.model).run s.2).1, s.1.stats⟩,
        ((generator.adopt item ds s.1.model).run s.2).2) := rfl

namespace Consults

variable {x : Training (StateM W) S α β}

/-- **What the lexicon generator leaves alone is left alone**, and so are the statistics. -/
theorem preserves {g : Model S α → γ} (hx : l.Consults x) (hadopt : l.AdoptPreserves g) :
    Preserves (fun p => (g p.model, p.stats)) x := by
  induction hx with
  | pure b => exact fun _ => rfl
  | fail cause => exact fun _ => rfl
  | parse | observe | generate => exact fun _ => rfl
  | look _ _ ih =>
    intro s
    rw [exec_bind, exec_get]
    exact ih s.1 s
  | adopt hset item ds _ ih =>
    intro s
    rw [exec_adopt]
    refine (ih _).trans ?_
    simp only [hadopt _ hset]
  | bind _ _ ihx ihk => exact .bind ihx ihk

/-- **Whatever ends the step early is a failure of the parser.** -/
theorem isParserFailure (hx : l.Consults x) {s s' : Situation S α W} {e : LearningError α}
    (h : exec x s = (.error e, s')) : IsParserFailure e := by
  induction hx generalizing s with
  | pure b => cases h
  | fail cause =>
    cases h
    exact ⟨cause, rfl⟩
  | parse | observe | generate => cases h
  | look _ _ ih =>
    rw [exec_bind, exec_get] at h
    exact ih s.1 h
  | adopt hset item ds _ ih =>
    rw [exec_adopt] at h
    exact ih h
  | bind _ _ ihx ihk =>
    rw [exec_bind] at h
    split at h
    · exact ihk _ h
    · next hs =>
      cases h
      exact ihx hs

/-- **The step takes no notice of the statistics.** -/
theorem oblivious (hx : l.Consults x) : Oblivious x := by
  induction hx with
  | pure b => exact fun model w => ⟨_, _, _, fun _ => rfl⟩
  | fail cause => exact fun model w => ⟨_, _, _, fun _ => rfl⟩
  | parse | observe | generate => exact .liftM _
  | look _ hmodel ih =>
    intro model w
    obtain ⟨r, model', w', hk⟩ := ih ⟨model, {}⟩ model w
    refine ⟨r, model', w', fun stats => ?_⟩
    rw [exec_bind, exec_get]
    simp only
    rw [hmodel ⟨model, {}⟩ stats, hk]
  | @adopt _ generator _ item ds _ _ ih =>
    intro model w
    obtain ⟨r, model', w', hx⟩ := ih ((generator.adopt item ds model).run w).1
      ((generator.adopt item ds model).run w).2
    exact ⟨r, model', w', fun stats => (exec_adopt ..).trans (hx stats)⟩
  | bind _ _ ihx ihk =>
    intro model w
    obtain ⟨r, model', w', hx⟩ := ihx model w
    cases r with
    | error e => exact ⟨.error e, model', w', fun stats => by rw [exec_bind, hx]⟩
    | ok b =>
      obtain ⟨r, model'', w'', hk⟩ := ihk b model' w'
      exact ⟨r, model'', w'', fun stats => by rw [exec_bind, hx]; exact hk stats⟩

/-- **If the collaborators answer alike in every world, the step is the same in every world.** -/
theorem steady (hx : l.Consults x)
    (hparse : ∀ sample model request, AnswersAlike (l.parser.parse sample model request))
    (hgenerate : ∀ generator, l.generator = some generator → ∀ item model,
      AnswersAlike (generator.generate item model))
    (hadopt : ∀ generator, l.generator = some generator → ∀ item ds model,
      AnswersAlike (generator.adopt item ds model)) : Steady x := by
  induction hx with
  | pure b => exact fun p w w' => ⟨rfl, rfl⟩
  | fail cause => exact fun p w w' => ⟨rfl, rfl⟩
  | parse sample model request => exact (hparse sample model request).steady_liftM
  | observe item output => exact fun p w w' => ⟨rfl, rfl⟩
  | generate hset item model => exact (hgenerate _ hset item model).steady_liftM
  | look _ _ ih => exact fun p => ih p p
  | adopt hset item ds _ ih =>
    intro p w w'
    rw [exec_adopt, exec_adopt, hadopt _ hset item ds p.model w w']
    exact ih _ _ _
  | bind _ _ ihx ihk =>
    intro p w w'
    obtain ⟨hr, hp⟩ := ihx p w w'
    rw [exec_bind, exec_bind]
    rcases hw : exec _ (p, w) with ⟨r, p₁, w₁⟩
    rcases hw' : exec _ (p, w') with ⟨r', p₁', w₁'⟩
    rw [hw, hw'] at hr hp
    cases hr
    cases hp
    cases r with
    | error e => exact ⟨rfl, rfl⟩
    | ok b => exact ihk b p₁ w₁ w₁'

end Consults

/-! ### Parsing and lexical induction -/

theorem consults_parse (request : ParseRequest L) : l.Consults (l.parse item request) := by
  unfold parse
  refine .look (fun p => .bind (.parse _ _ _) fun result => ?_) fun _ _ => rfl
  cases result with
  | error cause => exact .fail cause
  | ok output => exact .bind (.observe _ _) fun _ => .pure _

/-- The output that is biased towards validity. -/
def goodOutput [Monad m] (l : Learner m Item S L α) (item : Item) (induction : Induction α) :
    Training m S α (ParserOutput α) :=
  match induction.generated with
  | some output => if l.params.conflateParses then pure output else l.parseValid item
  | none => l.parseValid item

theorem consults_goodOutput (induction : Induction α) :
    l.Consults (l.goodOutput item induction) := by
  unfold goodOutput
  split
  · split_ifs
    · exact .pure _
    · exact consults_parse _
  · exact consults_parse _

section Order

variable [LT α] [DecidableLT α] [BEq α]

theorem consults_tryLexicon {generator : LexiconGenerator (StateM W) Item S L α}
    (hset : l.generator = some generator) : l.Consults (l.tryLexicon item generator) := by
  unfold tryLexicon
  refine .look (fun p => .bind (.generate hset _ _) fun lexicon => .bind (consults_parse _)
    fun output => ?_) fun _ _ => rfl
  simp only
  split
  · exact .adopt hset _ _ (.pure _)
  · exact .pure _

theorem consults_induce : l.Consults (l.induce item) := by
  unfold induce
  split
  · exact .pure _
  · next generator hset =>
    split_ifs
    · refine .bind (consults_parse _) fun output => ?_
      split_ifs
      · exact .pure _
      · exact consults_tryLexicon hset
    · exact consults_tryLexicon hset

/-- The beginning of a visit up to the unbiased output. -/
def realOutput [Monad m] (l : Learner m Item S L α) (item : Item) :
    Training m S α (Induction α × ParserOutput α) := do
  let induction ← l.induce item
  let real ← match induction.real with
    | some output => pure output
    | none => l.parse item {}
  return (induction, real)

/-- The beginning of a visit up to both outputs, the unbiased one first. -/
def outputs [Monad m] (l : Learner m Item S L α) (item : Item) :
    Training m S α (ParserOutput α × ParserOutput α) := do
  let (induction, real) ← l.realOutput item
  let good ← l.goodOutput item induction
  return (real, good)

theorem consults_realOutput : l.Consults (l.realOutput item) := by
  unfold realOutput
  refine .bind consults_induce fun induction => ?_
  cases induction.real with
  | some output => exact .bind (.pure _) fun _ => .pure _
  | none => exact .bind (consults_parse _) fun _ => .pure _

/-- **The parses of a visit are made of calls of the collaborators.** -/
theorem consults_outputs : l.Consults (l.outputs item) := by
  unfold outputs
  exact .bind consults_realOutput fun _ => .bind (consults_goodOutput _) fun _ => .pure _

end Order

end Learner

end LogicalForms
