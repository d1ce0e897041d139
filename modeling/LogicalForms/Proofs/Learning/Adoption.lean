import LogicalForms.Proofs.Learning.Driver
import LogicalForms.Proofs.Learning.Hardest
import LogicalForms.Proofs.Score.Largest

/-!
# The best derivations

Lexical induction looks for best derivations twice.  Whether it is needed is told by the best ones
of the unbiased output, which are found in two passes (`ParserOutput.best`).  What it adopts are the
best ones among the valid derivations, and these are found in one pass (`scanBest`).

Both ways find the derivations that no derivation outscores, as long as every score is equal to
itself (`ParserOutput.best_in_one_pass`).  So learning that is driven by errors does without
induction exactly when the best ones among the valid derivations are the best ones of all
(`Learner.settles_iff`).
-/

namespace LogicalForms

variable {Item S L : Type}

namespace ParserOutput

variable {o : ParserOutput Float}

/-- The best derivations are those that no derivation outscores. -/
theorem best_eq_topScoring (hnum : ∀ d ∈ o.derivations, (d.score == d.score) = true) :
    o.best = topScoring Derivation.score o.derivations :=
  bestBy_eq_topScoring hnum

theorem mem_best_iff (hnum : ∀ d ∈ o.derivations, (d.score == d.score) = true)
    {d : Derivation Float} :
    d ∈ o.best ↔ d ∈ o.derivations ∧ ∀ d' ∈ o.derivations, ¬d.score < d'.score := by
  rw [best_eq_topScoring hnum, topScoring, List.mem_filter, decide_eq_true_iff]

/-- They tie for the largest score, which is looked for from −∞ on. -/
theorem best_eq_filter_largest (hnum : ∀ d ∈ o.derivations, (d.score == d.score) = true) :
    o.best = o.derivations.filter fun d =>
      d.score == largest (o.derivations.map Derivation.score) := by
  rw [best_eq_topScoring hnum]
  exact topScoring_eq_filter_largest hnum Double.negInf_beq_self fun d hd =>
    Double.not_lt_negInf (hnum d hd)

theorem best_eq_nil_iff (hnum : ∀ d ∈ o.derivations, (d.score == d.score) = true) :
    o.best = [] ↔ o.derivations = [] := by
  rw [best_eq_topScoring hnum, topScoring_eq_nil_iff hnum]

end ParserOutput

namespace Learner

variable {l : Learner Id Item S L Float} {item : Item} {o : ParserOutput Float}

theorem beq_self_of_mem_validOf (hnum : ∀ d ∈ o.derivations, (d.score == d.score) = true) :
    ∀ d ∈ l.validOf item o, (d.score == d.score) = true := fun d hd =>
  hnum d (List.mem_of_mem_filter hd)

/-- **The best derivations are there and valid** exactly when the best ones of the valid derivations
are the best of all. -/
theorem settles_iff (hnum : ∀ d ∈ o.derivations, (d.score == d.score) = true) :
    l.Settles item o ↔ o.derivations ≠ [] ∧
      ParserOutput.best { o with derivations := l.validOf item o } = o.best := by
  rw [Settles, Ne, ParserOutput.best_eq_nil_iff hnum, ParserOutput.best_eq_topScoring hnum,
    ParserOutput.best_eq_topScoring (beq_self_of_mem_validOf hnum)]
  exact and_congr_right' (topScoring_filter_eq_iff hnum).symm

end Learner

namespace ParserOutput

/-- **One pass finds the same best derivations as two passes**, in the same order, when every score
is equal to itself.  They tie for the largest score, even if that is −∞, and no derivation outscores
them.  What tells that induction is not needed is therefore what induction would adopt: the best
valid derivations are the best of all.  And when induction has found valid derivations, it adopts
the best of an output that holds these. -/
theorem best_in_one_pass (o : ParserOutput Float)
    (hnum : ∀ d ∈ o.derivations, (d.score == d.score) = true) :
    (scanBest (fun i => (o.get i).score) o.positions = o.bestAt ∧
      scanBest Derivation.score o.derivations = o.best) ∧
    (o.best = o.derivations.filter fun d =>
      d.score == largest (o.derivations.map Derivation.score)) ∧
    (∀ d, d ∈ o.best ↔ d ∈ o.derivations ∧ ∀ d' ∈ o.derivations, ¬d.score < d'.score) ∧
    ∀ (l : Learner Id Item S L Float) (item : Item),
      (l.bestIsValid item o = true ↔
        o.derivations ≠ [] ∧ scanBest Derivation.score (l.validOf item o) = o.best) ∧
      ∀ (g : LexiconGenerator Id Item S L Float) (p : Progress S Float),
        l.ask item p.model (l.lexical item g p.model) = .ok o → l.validOf item o ≠ [] →
        let useful := best { o with derivations := l.validOf item o }
        Ends (l.recorded.tryLexicon item g.recorded) p (.ok { generated := some o })
          { p with model := g.adopt item useful p.model }
          [.generate item p.model, .parse (l.sample item) p.model (l.lexical item g p.model),
            .adopt item useful p.model] := by
  refine ⟨⟨scanBest_eq_bestBy fun i _ => hnum _ (List.get_mem _ _), scanBest_eq_bestBy hnum⟩,
    best_eq_filter_largest hnum, fun d => mem_best_iff hnum, fun l item => ?_⟩
  have huseful : scanBest Derivation.score (l.validOf item o) =
      best { o with derivations := l.validOf item o } :=
    scanBest_eq_bestBy (Learner.beq_self_of_mem_validOf hnum)
  refine ⟨?_, fun g p hask hvalid => ?_⟩
  · rw [huseful]
    exact (l.bestIsValid_iff item o).trans (Learner.settles_iff hnum)
  · rw [← huseful]
    exact l.ends_tryLexicon item hask hvalid

end ParserOutput

/-! ### Derivations at the limits -/

namespace Learner

/-- Some of the readings with `Partition.extremeScores`. -/
def extremes (is : List ℕ) : ParserOutput Float := ⟨is.map Partition.extremeReading, true⟩

/-- Proposes nothing, and adopts nothing. -/
def idle : LexiconGenerator Id Unit Unit Unit Float := ⟨fun _ _ => (), fun _ _ model => model⟩

/-- Gets all of the extreme readings, whatever the parser is asked. -/
def steadfast : Learner Id Unit Unit Unit Float where
  params := Params.standard
  sample := id
  parser := ⟨fun _ _ _ => .ok (extremes [0, 1, 2, 3, 4])⟩
  isValid _ t := t == Partition.verdict true
  generator := some idle
  observe _ _ := ()

/-- Two readings that score −∞ tie.  Among all readings a wrong one scores ∞, so there is something
to induce.  Two right ones with a score of 3 are adopted, although they come after another one with
a score of −∞. -/
theorem best_in_one_pass_extreme :
    (∀ d ∈ (extremes [0, 0]).derivations, (d.score == d.score) = true) ∧
    (∀ d ∈ (extremes [0, 1, 2, 3, 4]).derivations, (d.score == d.score) = true) ∧
    (scanBest (fun i => ((extremes [0, 0]).get i).score) (extremes [0, 0]).positions).map
      Fin.val = [0, 1] ∧
    ¬steadfast.bestIsValid () (extremes [0, 1, 2, 3, 4]) = true ∧
    steadfast.validOf () (extremes [0, 1, 2, 3, 4]) ≠ [] ∧
    Ends (steadfast.recorded.tryLexicon () idle.recorded) ⟨{}, {}⟩
      (.ok { generated := some (extremes [0, 1, 2, 3, 4]) }) ⟨{}, {}⟩
      [.generate () {}, .parse () {} (steadfast.lexical () idle {}),
        .adopt () (extremes [3, 4]).derivations {}] := by
  have hnum : ∀ d ∈ (extremes [0, 0]).derivations, (d.score == d.score) = true := by
    decide +kernel
  have hnum' : ∀ d ∈ (extremes [0, 1, 2, 3, 4]).derivations, (d.score == d.score) = true := by
    decide +kernel
  have hvalid : steadfast.validOf () (extremes [0, 1, 2, 3, 4]) ≠ [] := by
    change (extremes [0, 1, 3, 4]).derivations ≠ []
    exact List.cons_ne_nil _ _
  have huseful : (extremes [0, 1, 3, 4]).best = (extremes [3, 4]).derivations := by
    have hat : (extremes [0, 1, 3, 4]).bestAt = [⟨2, by decide⟩, ⟨3, by decide⟩] := by
      decide +kernel
    rw [← ParserOutput.map_get_bestAt, hat]
    rfl
  obtain ⟨⟨hties, -⟩, -⟩ := @ParserOutput.best_in_one_pass Unit Unit Unit _ hnum
  obtain ⟨-, -, -, hlearner⟩ := @ParserOutput.best_in_one_pass Unit Unit Unit _ hnum'
  obtain ⟨htest, hadopt⟩ := hlearner steadfast ()
  refine ⟨hnum, hnum', ?_, ?_, hvalid, ?_⟩
  · rw [hties]
    decide +kernel
  · intro hsettles
    have hlength := congrArg List.length (htest.1 hsettles).2
    revert hlength
    decide +kernel
  · rw [← huseful]
    exact hadopt idle ⟨{}, {}⟩ rfl hvalid

end Learner

end LogicalForms
