import LogicalForms.Proofs.Learning.Update
import LogicalForms.Proofs.Score.Order

/-!
# A visit up to its update

Collaborators that are functions of their arguments are those of a `Learner Id`.  Its visits are
followed through the learner that gives the same answers and writes down each call
(`Learner.recorded`).

* `Learner.Inducts` says how lexical induction may go.
* `Learner.outputsOf` are the outputs that the update has to be given: both are parsed anew, on the
  model that induction leaves behind.
* A visit keeps to this specification (`Learner.visit_conforms`), although it holds on to outputs of
  earlier parses.
-/

namespace LogicalForms

variable {m : Type → Type} {Item S L α β γ : Type}

/-- A call of a collaborator. -/
inductive Call (Item S L α : Type) where
  /-- A sample is parsed under a model. -/
  | parse (sample : S) (model : Model S α) (request : ParseRequest L)
  /-- Lexical entries are proposed for an item. -/
  | generate (item : Item) (model : Model S α)
  /-- The entries that derivations of an item use are adopted into a model. -/
  | adopt (item : Item) (ds : List (Derivation α)) (model : Model S α)

/-- Collaborators that write down their calls. -/
abbrev Recorded (Item S L α : Type) := StateM (List (Call Item S L α))

/-- Gives an answer and writes down the call. -/
def Recorded.answer (call : Call Item S L α) (b : β) : Recorded Item S L α β := do
  modify fun calls => calls ++ [call]
  return b

/-- Proposes and adopts the same, and writes it down. -/
def LexiconGenerator.recorded (g : LexiconGenerator Id Item S L α) :
    LexiconGenerator (Recorded Item S L α) Item S L α where
  generate item model := .answer (.generate item model) (g.generate item model)
  adopt item ds model := .answer (.adopt item ds model) (g.adopt item ds model)

namespace Learner

/-- The learner with the same answers, whose collaborators write down their calls. -/
def recorded (l : Learner Id Item S L α) : Learner (Recorded Item S L α) Item S L α where
  params := l.params
  sample := l.sample
  parser.parse sample model request :=
    .answer (.parse sample model request) (l.parser.parse sample model request)
  isValid := l.isValid
  filter := l.filter
  generator := l.generator.map LexiconGenerator.recorded
  observe _ _ := return

@[simp] theorem params_recorded (l : Learner Id Item S L α) : l.recorded.params = l.params := rfl

@[simp] theorem accepts_recorded (l : Learner Id Item S L α) (item : Item) :
    l.recorded.accepts item = l.accepts item := rfl

@[simp] theorem generator_recorded (l : Learner Id Item S L α) :
    l.recorded.generator = l.generator.map LexiconGenerator.recorded := rfl

/-! ### The specification -/

section Specification

variable (l : Learner Id Item S L α) (item : Item)

/-- What the parser returns for an item under a model. -/
def ask (model : Model S α) (request : ParseRequest L) : Except String (ParserOutput α) :=
  l.parser.parse (l.sample item) model request

/-- Logical forms that are not valid are pruned. -/
def biased : ParseRequest L := { pruning := some (l.isValid item) }

/-- The request of lexical induction: with the proposed lexicon, pruned, and with a beam of its
own. -/
def lexical (g : LexiconGenerator Id Item S L α) (model : Model S α) : ParseRequest L where
  pruning := some (l.isValid item)
  lexicon := some (g.generate item model)
  beamSize := some l.params.beamSize.toNat

/-- The valid derivations of an output. -/
def validOf (output : ParserOutput α) : List (Derivation α) :=
  output.derivations.filter fun d => l.isValid item d.semantics

/-- The calls of a parse that comes before lexical induction to see whether it is needed. -/
def probe (model : Model S α) : List (Call Item S L α) :=
  if l.params.errorDriven then [.parse (l.sample item) model {}] else []

variable {l item} in
theorem mem_probe {model : Model S α} {call : Call Item S L α} :
    call ∈ l.probe item model ↔
      l.params.errorDriven = true ∧ call = .parse (l.sample item) model {} := by
  unfold probe
  split_ifs with h <;> simp [h]

/-- The output that is biased towards validity, which may be conflated with that of induction. -/
def goodOf (after : Model S α) (generated : Option (ParserOutput α)) :
    Except String (ParserOutput α) :=
  match generated with
  | some output => if l.params.conflateParses then .ok output else l.ask item after (l.biased item)
  | none => l.ask item after (l.biased item)

/-- What the update is given once lexical induction is over. -/
def outputsOf (after : Model S α) (induced : Except String (Option (ParserOutput α))) :
    Except String (ParserOutput α × ParserOutput α) := do
  let generated ← induced
  let real ← l.ask item after {}
  let good ← l.goodOf item after generated
  return (real, good)

variable [LT α] [DecidableLT α] [BEq α]

/-- The best derivations of the output are there, and they are all valid. -/
def Settles (output : ParserOutput α) : Prop :=
  output.best ≠ [] ∧ ∀ d ∈ output.best, l.isValid item d.semantics = true

/-- Lexical induction runs with this generator: learning is not driven by errors, or the unbiased
parse has shown one. -/
def Induces (model : Model S α) (g : LexiconGenerator Id Item S L α) : Prop :=
  l.generator = some g ∧
    (l.params.errorDriven = true → ∃ output, l.ask item model {} = .ok output ∧
      ¬l.Settles item output)

/-- How lexical induction may go: its calls, the model after it, and the output that it leaves if it
runs, or the cause of a failure. -/
inductive Inducts (before : Model S α) : List (Call Item S L α) → Model S α →
    Except String (Option (ParserOutput α)) → Prop
  /-- There is no generator. -/
  | unset (hunset : l.generator = none) : Inducts before [] before (.ok none)
  /-- The unbiased parse shows that there is nothing to do. -/
  | settled {output : ParserOutput α} (hset : l.generator.isSome)
      (hdriven : l.params.errorDriven = true) (hprobe : l.ask item before {} = .ok output)
      (hsettles : l.Settles item output) : Inducts before (l.probe item before) before (.ok none)
  /-- The unbiased parse fails. -/
  | unanswered {cause : String} (hset : l.generator.isSome) (hdriven : l.params.errorDriven = true)
      (hprobe : l.ask item before {} = .error cause) :
      Inducts before (l.probe item before) before (.error cause)
  /-- The parse with the proposed lexicon fails. -/
  | failed {g : LexiconGenerator Id Item S L α} {cause : String} (hg : l.Induces item before g)
      (hask : l.ask item before (l.lexical item g before) = .error cause) :
      Inducts before (l.probe item before ++ [.generate item before,
        .parse (l.sample item) before (l.lexical item g before)]) before (.error cause)
  /-- Nothing valid is found. -/
  | barren {g : LexiconGenerator Id Item S L α} {output : ParserOutput α}
      (hg : l.Induces item before g)
      (hask : l.ask item before (l.lexical item g before) = .ok output)
      (hvalid : l.validOf item output = []) :
      Inducts before (l.probe item before ++ [.generate item before,
        .parse (l.sample item) before (l.lexical item g before)]) before (.ok (some output))
  /-- What the best valid derivations use is adopted. -/
  | adopted {g : LexiconGenerator Id Item S L α} {output : ParserOutput α}
      {ds : List (Derivation α)} (hg : l.Induces item before g)
      (hask : l.ask item before (l.lexical item g before) = .ok output)
      (hvalid : l.validOf item output ≠ [])
      (hbest : (∀ d ∈ l.validOf item output, (d.score == d.score) = true) →
        ds = topScoring Derivation.score (l.validOf item output)) :
      Inducts before (l.probe item before ++ [.generate item before,
        .parse (l.sample item) before (l.lexical item g before), .adopt item ds before])
        (g.adopt item ds before) (.ok (some output))

end Specification

end Learner

/-! ### Recorded steps -/

/-- From a progress the step ends with a result or a failure of the parser, with this progress and
after these calls. -/
def Ends (x : Training (Recorded Item S L α) S α β) (p : Progress S α) (result : Except String β)
    (p' : Progress S α) (calls : List (Call Item S L α)) : Prop :=
  ∀ log, exec x (p, log) = (result.mapError .parserFailure, p', log ++ calls)

namespace Ends

variable {p p' p'' : Progress S α} {calls calls' : List (Call Item S L α)}
  {x : Training (Recorded Item S L α) S α β} {f : β → Training (Recorded Item S L α) S α γ}

theorem pure (b : β) : Ends (pure b : Training (Recorded Item S L α) S α β) p (.ok b) p [] :=
  fun log => by rw [exec_pure, List.append_nil]; rfl

theorem throw (cause : String) :
    Ends (throw (.parserFailure cause) : Training (Recorded Item S L α) S α β) p (.error cause) p
      [] :=
  fun log => by rw [exec_throw, List.append_nil]; rfl

theorem get : Ends (get : Training (Recorded Item S L α) S α (Progress S α)) p (.ok p) p [] :=
  fun log => by rw [exec_get, List.append_nil]; rfl

theorem modify (f : Progress S α → Progress S α) :
    Ends (modify f : Training (Recorded Item S L α) S α PUnit) p (.ok ⟨⟩) (f p) [] :=
  fun log => by rw [exec_modify, List.append_nil]; rfl

theorem answer (call : Call Item S L α) (b : β) :
    Ends (Recorded.answer call b : Training (Recorded Item S L α) S α β) p (.ok b) p [call] :=
  fun _ => rfl

theorem bind_ok {b : β} {result : Except String γ} (hx : Ends x p (.ok b) p' calls)
    (hf : Ends (f b) p' result p'' calls') :
    Ends (x >>= f) p result p'' (calls ++ calls') := by
  intro log
  rw [exec_bind, hx log]
  exact (hf (log ++ calls)).trans (by rw [List.append_assoc])

theorem bind_error {cause : String} (hx : Ends x p (.error cause) p' calls) :
    Ends (x >>= f) p (.error cause) p' calls := by
  intro log
  rw [exec_bind, hx log]
  rfl

theorem parse (l : Learner Id Item S L α) (item : Item) (request : ParseRequest L) :
    Ends (l.recorded.parse item request) p (l.ask item p.model request) p
      [.parse (l.sample item) p.model request] := by
  unfold Learner.parse
  refine .bind_ok .get (.bind_ok (.answer _ (l.ask item p.model request)) ?_)
  cases l.ask item p.model request with
  | error cause => exact .throw cause
  | ok output => exact .bind_ok (.pure ()) (.pure output)

end Ends

namespace Learner

variable [LT α] [DecidableLT α] [BEq α] (l : Learner Id Item S L α) (item : Item)
  {p : Progress S α}

theorem bestIsValid_iff (output : ParserOutput α) :
    l.recorded.bestIsValid item output = true ↔ l.Settles item output := by
  have hsame : l.recorded.bestIsValid item output = l.bestIsValid item output := rfl
  rw [hsame]
  simp [bestIsValid, Settles]

/-- An unbiased output that lexical induction hands on is what the parser returns now. -/
def Current (after : Model S α) : Except String (Induction α) → Prop
  | .ok ⟨some output, _⟩ => l.ask item after {} = .ok output
  | _ => True

/-- Lexical induction from a progress goes as specified, with these calls after the probe. -/
def InductionEnds (x : Training (Recorded Item S L α) S α (Induction α)) (p : Progress S α)
    (probe : List (Call Item S L α)) : Prop :=
  ∃ calls after result,
    l.Inducts item p.model (probe ++ calls) after (result.map Induction.generated) ∧
      l.Current item after result ∧ Ends x p result { p with model := after } calls

theorem ends_tryLexicon {g : LexiconGenerator Id Item S L α} {output : ParserOutput α}
    (hask : l.ask item p.model (l.lexical item g p.model) = .ok output)
    (hvalid : l.validOf item output ≠ []) :
    let useful := scanBest Derivation.score (l.validOf item output)
    Ends (l.recorded.tryLexicon item g.recorded) p (.ok { generated := some output })
      { p with model := g.adopt item useful p.model }
      [.generate item p.model, .parse (l.sample item) p.model (l.lexical item g p.model),
        .adopt item useful p.model] := by
  intro useful
  have hgenerate : Ends (liftM (g.recorded.generate item p.model) : Training _ S α L) p
      (.ok (g.generate item p.model)) p [.generate item p.model] := .answer _ _
  have hparse : Ends (l.recorded.parse item (l.lexical item g p.model)) p _ p _ := .parse l item _
  have hsome : useful ≠ [] := fun h => hvalid (scanBest_eq_nil_iff.1 h)
  rw [hask] at hparse
  unfold tryLexicon
  refine .bind_ok .get (.bind_ok hgenerate (.bind_ok hparse ?_))
  change Ends (if (!useful.isEmpty) = true then _ else _) _ _ _ _
  rw [if_pos (by simpa using hsome)]
  exact .bind_ok .get (.bind_ok (.answer _ _) (.bind_ok (.modify _) (.pure _)))

/-- Trying a proposed lexicon is what induction comes to when it runs. -/
theorem inductionEnds_tryLexicon [OrderedScores α] {g : LexiconGenerator Id Item S L α}
    (hg : l.Induces item p.model g) :
    l.InductionEnds item (l.recorded.tryLexicon item g.recorded) p (l.probe item p.model) := by
  have hgenerate : Ends (liftM (g.recorded.generate item p.model) : Training _ S α L) p
      (.ok (g.generate item p.model)) p [.generate item p.model] := .answer _ _
  have hparse : Ends (l.recorded.parse item (l.lexical item g p.model)) p _ p _ := .parse l item _
  unfold tryLexicon
  cases hask : l.ask item p.model (l.lexical item g p.model) with
  | error cause =>
    rw [hask] at hparse
    exact ⟨_, _, .error cause, .failed hg hask, trivial,
      .bind_ok .get (.bind_ok hgenerate (.bind_error hparse))⟩
  | ok output =>
    rw [hask] at hparse
    by_cases hvalid : l.validOf item output = []
    · refine ⟨_, _, .ok ⟨none, some output⟩, .barren hg hask hvalid, trivial,
        .bind_ok .get (.bind_ok hgenerate (.bind_ok hparse ?_))⟩
      have hnone : scanBest Derivation.score (l.validOf item output) = [] :=
        scanBest_eq_nil_iff.2 hvalid
      change Ends (if (!(scanBest Derivation.score (l.validOf item output)).isEmpty) = true then _
        else _) _ _ _ _
      rw [hnone, if_neg (by simp)]
      exact .pure _
    · exact ⟨_, _, .ok ⟨none, some output⟩, .adopted hg hask hvalid scanBest_eq_topScoring, trivial,
        l.ends_tryLexicon item hask hvalid⟩

/-- **Lexical induction goes as specified.** -/
theorem inductionEnds_induce [OrderedScores α] :
    l.InductionEnds item (l.recorded.induce item) p [] := by
  unfold induce
  rw [generator_recorded, params_recorded]
  cases hset : l.generator with
  | none =>
    exact ⟨[], p.model, .ok {}, .unset hset, trivial, .pure _⟩
  | some g =>
    simp only [Option.map_some]
    by_cases hdriven : l.params.errorDriven = true
    · have hprobe : Ends (l.recorded.parse item {}) p (l.ask item p.model {}) p
          (l.probe item p.model) := by
        rw [probe, if_pos hdriven]
        exact .parse l item {}
      rw [if_pos hdriven]
      cases hask : l.ask item p.model {} with
      | error cause =>
        rw [hask] at hprobe
        exact ⟨_, _, .error cause, .unanswered (by simp [hset]) hdriven hask, trivial,
          .bind_error hprobe⟩
      | ok output =>
        rw [hask] at hprobe
        by_cases hsettles : l.Settles item output
        · refine ⟨l.probe item p.model, p.model, .ok ⟨some output, none⟩,
            .settled (by simp [hset]) hdriven hask hsettles, hask, ?_⟩
          rw [← List.append_nil (l.probe item p.model)]
          refine .bind_ok hprobe ?_
          rw [if_pos ((l.bestIsValid_iff item output).2 hsettles)]
          exact .pure _
        · obtain ⟨calls, after, result, hinducts, hcurrent, hends⟩ :=
            l.inductionEnds_tryLexicon item (p := p) ⟨hset, fun _ => ⟨output, hask, hsettles⟩⟩
          refine ⟨_, after, result, hinducts, hcurrent, .bind_ok hprobe ?_⟩
          rw [if_neg fun h => hsettles ((l.bestIsValid_iff item output).1 h)]
          exact hends
    · have hprobe : l.probe item p.model = [] := if_neg hdriven
      rw [if_neg hdriven, ← hprobe]
      exact l.inductionEnds_tryLexicon item ⟨hset, fun h => absurd h hdriven⟩

/-! ### The two outputs -/

/-- From a progress the step only asks the parser about the item, and ends with what it answers. -/
def Asks (x : Training (Recorded Item S L α) S α β) (p : Progress S α) (result : Except String β) :
    Prop :=
  ∃ calls, (∀ call ∈ calls, ∃ request, call = .parse (l.sample item) p.model request) ∧
    Ends x p result p calls

variable {l item}

omit [LT α] [DecidableLT α] [BEq α] in
theorem Asks.pure (b : β) : l.Asks item (pure b) p (.ok b) := ⟨[], by simp, .pure b⟩

omit [LT α] [DecidableLT α] [BEq α] in
theorem Asks.parse (request : ParseRequest L) :
    l.Asks item (l.recorded.parse item request) p (l.ask item p.model request) :=
  ⟨_, by simp, .parse l item request⟩

omit [LT α] [DecidableLT α] [BEq α] in
theorem Asks.bind {x : Training (Recorded Item S L α) S α β}
    {f : β → Training (Recorded Item S L α) S α γ} {result : Except String β}
    {result' : β → Except String γ} (hx : l.Asks item x p result)
    (hf : ∀ b, l.Asks item (f b) p (result' b)) : l.Asks item (x >>= f) p (result >>= result') := by
  obtain ⟨calls, hcalls, hx⟩ := hx
  cases result with
  | error cause => exact ⟨calls, hcalls, .bind_error hx⟩
  | ok b =>
    obtain ⟨calls', hcalls', hf⟩ := hf b
    refine ⟨calls ++ calls', fun call hcall => ?_, .bind_ok hx hf⟩
    rcases List.mem_append.1 hcall with hcall | hcall
    · exact hcalls call hcall
    · exact hcalls' call hcall

omit [LT α] [DecidableLT α] [BEq α] in
theorem asks_goodOutput (induction : Induction α) :
    l.Asks item (l.recorded.goodOutput item induction) p
      (l.goodOf item p.model induction.generated) := by
  unfold goodOutput goodOf
  cases induction.generated with
  | none => exact .parse _
  | some output =>
    rw [params_recorded]
    by_cases hconflate : l.params.conflateParses = true
    · simp only [if_pos hconflate]
      exact .pure output
    · simp only [if_neg hconflate]
      exact .parse _

/-- The rest of a visit up to both outputs, once lexical induction is over. -/
def outputsAfter [Monad m] (l : Learner m Item S L α) (item : Item) (induction : Induction α) :
    Training m S α (ParserOutput α × ParserOutput α) := do
  let real ← match induction.real with
    | some output => pure output
    | none => l.parse item {}
  let good ← l.goodOutput item induction
  return (real, good)

theorem outputs_eq [Monad m] [LawfulMonad m] (l : Learner m Item S L α) (item : Item) :
    l.outputs item = l.induce item >>= l.outputsAfter item := by
  unfold outputs realOutput outputsAfter
  simp only [bind_assoc]
  refine bind_congr fun induction => ?_
  cases induction.real <;> simp only [bind_assoc, pure_bind]

omit [LT α] [DecidableLT α] [BEq α] in
theorem asks_outputsAfter {induction : Induction α}
    (hcurrent : l.Current item p.model (.ok induction)) :
    l.Asks item (l.recorded.outputsAfter item induction) p
      (l.outputsOf item p.model (.ok induction.generated)) := by
  have hgood : ∀ real : ParserOutput α, l.Asks item
      (do let good ← l.recorded.goodOutput item induction; return (real, good)) p
      (do let good ← l.goodOf item p.model induction.generated; return (real, good)) :=
    fun real => (asks_goodOutput induction).bind fun good => .pure (real, good)
  rcases induction with ⟨_ | real, generated⟩
  · exact (Asks.parse {}).bind hgood
  · -- the output that was handed on is what a new parse would give
    have hreal : l.ask item p.model {} = .ok real := hcurrent
    have houtputs : l.outputsOf item p.model (.ok generated) =
        (do let good ← l.goodOf item p.model generated; return (real, good)) := by
      change (l.ask item p.model {} >>= _) = _
      rw [hreal]
      rfl
    rw [houtputs]
    exact hgood real

variable [OrderedScores α]

/-- **Both outputs are what the parser returns on the model that lexical induction leaves behind**,
however they were come by. -/
theorem exists_ends_outputs (l : Learner Id Item S L α) (item : Item) (p : Progress S α) :
    ∃ calls tail after induced, l.Inducts item p.model calls after induced ∧
      (∀ call ∈ tail, ∃ request, call = .parse (l.sample item) after request) ∧
      Ends (l.recorded.outputs item) p (l.outputsOf item after induced) { p with model := after }
        (calls ++ tail) := by
  obtain ⟨calls, after, result, hinducts, hcurrent, hends⟩ := l.inductionEnds_induce item (p := p)
  rw [outputs_eq]
  cases result with
  | error cause =>
    refine ⟨calls, [], after, .error cause, hinducts, by simp, ?_⟩
    rw [List.append_nil]
    exact .bind_error hends
  | ok induction =>
    obtain ⟨tail, htail, hrest⟩ := asks_outputsAfter (p := { p with model := after }) hcurrent
    exact ⟨calls, tail, after, _, hinducts, htail, .bind_ok hends hrest⟩

end Learner

/-! ### What is called -/

namespace Learner

section Calls

variable [LT α] [DecidableLT α] [BEq α] {l : Learner Id Item S L α} {item : Item}
  {before after model : Model S α} {calls : List (Call Item S L α)}
  {induced : Except String (Option (ParserOutput α))}

/-- **Entries are proposed exactly when lexical induction runs**, for this item and on the model as
it was. -/
theorem Inducts.generate_mem_iff (h : l.Inducts item before calls after induced) {item' : Item} :
    .generate item' model ∈ calls ↔
      item' = item ∧ model = before ∧ ∃ g, l.Induces item before g := by
  cases h with
  | unset hunset =>
    have hnone : ¬∃ g, l.Induces item before g := by
      rintro ⟨g, hg, -⟩
      rw [hunset] at hg
      cases hg
    simp [hnone]
  | settled hset hdriven hprobe hsettles =>
    have hnone : ¬∃ g, l.Induces item before g := by
      rintro ⟨g, -, hneeded⟩
      obtain ⟨output, hask, hnot⟩ := hneeded hdriven
      rw [hprobe, Except.ok.injEq] at hask
      exact hnot (hask ▸ hsettles)
    simp [hnone, mem_probe]
  | unanswered hset hdriven hprobe =>
    have hnone : ¬∃ g, l.Induces item before g := by
      rintro ⟨g, -, hneeded⟩
      obtain ⟨output, hask, -⟩ := hneeded hdriven
      rw [hprobe] at hask
      cases hask
    simp [hnone, mem_probe]
  | failed hg | barren hg | adopted hg =>
    have hsome : ∃ g, l.Induces item before g := ⟨_, hg⟩
    simp [hsome, mem_probe]

/-- **Something is adopted exactly when lexical induction leaves an output with a valid
derivation**, for this item and into the model as it was. -/
theorem Inducts.adopt_mem_iff (h : l.Inducts item before calls after induced) {item' : Item} :
    (∃ ds, .adopt item' ds model ∈ calls) ↔
      item' = item ∧ model = before ∧ ∃ output, induced = .ok (some output) ∧
        l.validOf item output ≠ [] := by
  cases h with
  | unset hunset => simp
  | settled hset hdriven hprobe hsettles => simp [mem_probe]
  | unanswered hset hdriven hprobe => simp [mem_probe]
  | failed hg hask => simp [mem_probe]
  | barren hg hask hvalid => simp [mem_probe, hvalid]
  | adopted hg hask hvalid hbest => simp [mem_probe, hvalid]

end Calls

/-! ### A visit -/

section Visit

variable [Zero α] [One α] [Add α] [Neg α] [Mul α] [Div α] [NatCast α] [LT α] [DecidableLT α] [LE α]
  [DecidableLE α] [BEq α] [OfScientific α] [ScoreRange α]

/-- How a visit ends with two outputs, or with the cause of a failure. -/
def conclude (l : Learner Id Item S L α) (item : Item) (v : Visit) (p : Progress S α)
    (log : List (Call Item S L α)) : Except String (ParserOutput α × ParserOutput α) →
      Except (LearningError α) Unit × Situation S α (List (Call Item S L α))
  | .error cause => (.error (.parserFailure cause), p, log)
  | .ok (real, good) =>
    let (result, p) := parameterUpdate l.params (l.isValid item) v real good p
    (result.map fun _ => (), p, log)

/-- **A visit keeps to its specification.**  Items that the filter rejects are recorded without
a call.  For the others, lexical induction calls the lexicon generator and the parser as specified;
after it, the parser is only asked on the model that induction leaves behind, and the update is
given what the parser returns on that model. -/
theorem visit_conforms [OrderedScores α] (l : Learner Id Item S L α) (item : Item) (v : Visit)
    (p : Progress S α) (log : List (Call Item S L α)) :
    (l.accepts item = false →
      exec (l.recorded.visit item v) (p, log) =
        let (result, q) := p.record (·.recordSkipped v)
        (result, q, log)) ∧
    (l.accepts item = true → ∃ calls tail after induced,
      l.Inducts item p.model calls after induced ∧
      (∀ call ∈ tail, ∃ request, call = .parse (l.sample item) after request) ∧
      exec (l.recorded.visit item v) (p, log) =
        l.conclude item v { p with model := after } (log ++ calls ++ tail)
          (l.outputsOf item after induced) ∧
      (∀ item' model, .generate item' model ∈ calls ↔
        item' = item ∧ model = p.model ∧ ∃ g, l.Induces item p.model g) ∧
      (∀ item' model, (∃ ds, .adopt item' ds model ∈ calls) ↔
        item' = item ∧ model = p.model ∧ ∃ output, induced = .ok (some output) ∧
          l.validOf item output ≠ [])) := by
  unfold visit
  rw [accepts_recorded]
  refine ⟨fun hrejects => ?_, fun haccepts => ?_⟩
  · rw [if_neg (by simp [hrejects])]
    exact exec_record _ _
  obtain ⟨calls, tail, after, induced, hinducts, htail, hends⟩ := exists_ends_outputs l item p
  refine ⟨calls, tail, after, induced, hinducts, htail, ?_,
    fun _ _ => hinducts.generate_mem_iff, fun _ _ => hinducts.adopt_mem_iff⟩
  rw [if_pos haccepts, learnFrom_eq, exec_bind, hends log, List.append_assoc]
  rcases l.outputsOf item after induced with cause | ⟨real, good⟩
  · rfl
  · -- the update is made on the model that induction leaves behind
    change exec (do
      let (result, q) := parameterUpdate l.params (l.isValid item) v real good (← get)
      set q
      discard (MonadExcept.ofExcept result)) ({ p with model := after }, log ++ (calls ++ tail)) = _
    rw [exec_bind, exec_get]
    simp only [conclude]
    rcases parameterUpdate l.params (l.isValid item) v real good { p with model := after } with
      ⟨_ | _, q⟩ <;> rfl

end Visit

/-! ### A visit that adopts something -/

section Apprentice

/-- A reading whose only feature is named like its constant. -/
def apprenticeReading (name : String) : Derivation Float :=
  .single (.const ⟨name, .atom "t"⟩) 0 (.ofList [(⟨name⟩, 1)])

/-- Knows the wrong reading.  The right one has to be proposed, unless it has a weight already. -/
def apprenticeParser : Parser Id Unit Unit Float where
  parse _ model request :=
    let known := request.lexicon.isSome || model.theta.contains ⟨"right"⟩
    let readings := (if known then ["wrong", "right"] else ["wrong"]).map apprenticeReading
    .ok ⟨readings.filter fun d => request.admits d.semantics, true⟩

/-- Looks for other readings when the best ones are wrong, and gives weight to what is useful. -/
def apprentice : Learner Id Unit Unit Unit Float where
  params := { Params.standard with errorDriven := true }
  sample := id
  parser := apprenticeParser
  isValid _ t := t = .const ⟨"right", .atom "t"⟩
  generator := some {
    generate _ _ := ()
    adopt _ ds model :=
      { model with theta := ds.foldl (fun theta d => theta.addTimes 1 d.features) model.theta } }
  observe _ _ := ()

theorem visit_conforms_apprentice :
    apprentice.accepts () = true ∧ ∃ calls tail after induced,
      apprentice.Inducts () {} calls after induced ∧ .generate () {} ∈ calls ∧
      exec (apprentice.recorded.visit () ⟨0, 0⟩) (⟨{}, {}⟩, []) =
        apprentice.conclude () ⟨0, 0⟩ ⟨after, {}⟩ (calls ++ tail)
          (apprentice.outputsOf () after induced) := by
  refine ⟨rfl, ?_⟩
  obtain ⟨calls, tail, after, induced, hinducts, -, hrun, hgenerate, -⟩ :=
    (visit_conforms apprentice () ⟨0, 0⟩ ⟨{}, {}⟩ []).2 rfl
  refine ⟨calls, tail, after, induced, hinducts, (hgenerate () {}).2 ⟨rfl, rfl, _, rfl, ?_⟩, hrun⟩
  -- the best derivation of the first parse is wrong
  refine fun _ => ⟨⟨[apprenticeReading "wrong"], true⟩, rfl, fun hsettles => ?_⟩
  have hbest : apprenticeReading "wrong" ∈ ParserOutput.best ⟨[apprenticeReading "wrong"], true⟩ :=
    List.mem_filter.2 ⟨List.mem_cons_self, by decide +kernel⟩
  exact absurd (hsettles.2 _ hbest) (by decide)

end Apprentice

end Learner

end LogicalForms
