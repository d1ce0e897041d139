import LogicalForms.Proofs.Model.ConstantCounts
import LogicalForms.Proofs.Term.Supply

/-!
# Features and identities

A feature set is anonymous (`FeatureSet.Anonymous`) if what it adds for a logical form is the same
whatever the identities of the variables are.  A set that looks at nothing but anonymous
observations is anonymous, such as the one that counts constants.  With anonymous sets a model gives a
logical form and its renamings the same features and the same score (`Model.anonymous_features`,
`Model.anonymous_scoreTerm`), and both do not depend on the counter that the identities come from
(`Model.unaffected_by_identities`).
-/

namespace LogicalForms

variable {S α : Type}

namespace FeatureSet

/-- The features that are added for a logical form do not depend on the identities of its
variables. -/
def Anonymous (fs : FeatureSet S α) : Prop :=
  ∀ s v, Term.Anonymous fun t => fs.addFeatures s t v

variable {fs : FeatureSet S α}

theorem anonymous_of_observe {β : Type*} {observe : Term → β} (h : Term.Anonymous observe)
    (add : S → β → FeatureVector α → FeatureVector α)
    (hadd : ∀ s t v, fs.addFeatures s t v = add s (observe t) v) : fs.Anonymous := by
  intro s v r t hr hty
  change fs.addFeatures s (t.rename r) v = fs.addFeatures s t v
  rw [hadd, hadd, h hr hty]

theorem anonymous_constantCounts [Zero α] [One α] [Add α] :
    (constantCounts : FeatureSet S α).Anonymous :=
  anonymous_of_observe .constants
    (fun _ cs v => (cs.map constantKey).foldl (fun v k => v.addAt k 1) v)
    fun _ t v => countConstants_eq_foldl v t

end FeatureSet

namespace Model

section Anonymous

variable {m : Model S α} (hm : ∀ fs ∈ m.featureSets, fs.Anonymous)
include hm

theorem anonymous_features (s : S) : Term.Anonymous (m.features s) := fun _ _ hr hty =>
  List.foldl_ext _ _ _ fun v fs hfs => hm fs hfs s v hr hty

theorem anonymous_scoreTerm [Zero α] [Add α] [Mul α] (s : S) :
    Term.Anonymous (m.scoreTerm s) := (anonymous_features hm s).comp m.score

end Anonymous

/-- **Only the identity of variables matters.**  A function that is one-to-one on the variables of a
term, and on any others, and keeps their types, does not change the text of the term, and commutes
with simplification, with the collection of vacuous variables and with the test for a mention.  The
counter that the identities come from decides by how much they are higher, and neither whether a text
is read nor anything else.

So the texts, the features and the scores of the terms that are read, simplified or not, do not
depend on the counter, as long as no feature set of the model looks at identities.  Counting constants
does not, and no set does that looks at nothing of a term but its text. -/
theorem unaffected_by_identities :
    (∀ (r : Var → Var) (vs : List Var) (t : Term), Set.InjOn r {v | v ∈ vs} →
      (∀ v ∈ vs, (r v).ty = v.ty) → t.occurrences ⊆ vs →
        (t.rename r).render = t.render ∧
          (∀ strip, (t.rename r).simplify strip = (t.simplify strip).rename r) ∧
          (t.rename r).vacuous = t.vacuous.map r ∧
          ∀ v ∈ vs, (t.rename r).mentions (r v) = t.mentions v) ∧
      (∀ next k text, Term.readFrom (next + k) text =
        (Term.readFrom next text).map fun p => (p.1.rename (Var.shift k), p.2 + k)) ∧
      (∀ strip, Term.CounterFree fun t => (t.simplify strip).render) ∧
      (∀ (S α : Type) [Zero α] [Add α] [Mul α] (m : Model S α),
        (∀ fs ∈ m.featureSets, fs.Anonymous) → ∀ s,
          Term.Anonymous (m.features s) ∧ Term.Anonymous (m.scoreTerm s) ∧
            ∀ strip, Term.CounterFree (fun t => m.features s (t.simplify strip)) ∧
              Term.CounterFree fun t => m.scoreTerm s (t.simplify strip)) ∧
      (∀ (S α : Type) [Zero α] [One α] [Add α],
        (FeatureSet.constantCounts : FeatureSet S α).Anonymous) ∧
      ∀ (S α : Type) (fs : FeatureSet S α) (add : S → String → FeatureVector α → FeatureVector α),
        (∀ s t v, fs.addFeatures s t v = add s t.render v) → fs.Anonymous := by
  refine ⟨fun r vs t hr hty ht => ?_, Term.readFrom_shift,
    fun strip => (Term.Anonymous.render.simplify strip).counterFree, fun S α _ _ _ m hm s => ?_,
    fun S α _ _ _ => FeatureSet.anonymous_constantCounts,
    fun S α fs add hadd => FeatureSet.anonymous_of_observe .render add hadd⟩
  · have hrender : (t.rename r).render = t.render :=
      Term.render_rename (hr.mono fun v hv => ht hv) fun v hv => hty v (ht hv)
    exact ⟨hrender, Term.simplify_rename hr ht, Term.vacuous_rename hr ht,
      fun v hv => Term.mentions_rename hr ht hv⟩
  · have hfeatures := anonymous_features hm s
    have hscore := anonymous_scoreTerm hm s
    exact ⟨hfeatures, hscore, fun strip =>
      ⟨(hfeatures.simplify strip).counterFree, (hscore.simplify strip).counterFree⟩⟩

/-- Two lambdas that bind the same variable, which is also free; the second one is unused, and so is
the lambda in its body, whose variable is free in the first one. -/
def rebound : Term :=
  let e : Ty := .atom "e"
  .lit (.lam ⟨0, e⟩ (.lit (.const ⟨"near", .arrow e e⟩) [.var ⟨0, e⟩, .var ⟨1, e⟩]))
    [.lam ⟨0, e⟩ (.lam ⟨1, e⟩ (.const ⟨"a", e⟩)), .var ⟨0, e⟩]

theorem unaffected_by_identities_rebound :
    let e : Ty := .atom "e"
    let r : Var → Var := fun v => ⟨9 - v.id, v.ty⟩
    let vs : List Var := [⟨0, e⟩, ⟨1, e⟩, ⟨2, e⟩]
    let m : Model Unit ℤ :=
      { theta := .ofList [(⟨"CONST#a:e"⟩, 3)], featureSets := [.constantCounts] }
    Set.InjOn r {v | v ∈ vs} ∧ (∀ v ∈ vs, (r v).ty = v.ty) ∧ rebound.occurrences ⊆ vs ∧
      ¬rebound.Hygienic ∧ (rebound.rename r).render = rebound.render ∧
      rebound.simplify true ≠ rebound ∧
      (rebound.rename r).simplify true = (rebound.simplify true).rename r ∧
      (rebound.rename r).vacuous = [⟨8, e⟩] ∧ (rebound.rename r).mentions ⟨8, e⟩ = true ∧
      (rebound.rename r).mentions ⟨7, e⟩ = false ∧
      (∀ fs ∈ m.featureSets, fs.Anonymous) ∧
      m.scoreTerm () (rebound.rename r) = m.scoreTerm () rebound ∧
      (Term.readFrom 41 "(lambda $x:e (p:<e,e> $y:e a:e))").map (fun p => p.2) = .ok 43 ∧
      (Term.readFrom 41 "(lambda $x:e (p:<e,e> $y:e a:e))").map
          (fun p => m.scoreTerm () (p.1.simplify true)) = .ok 3 := by
  intro e r vs m
  have hr : Set.InjOn r {v | v ∈ vs} := by
    intro v hv w hw
    simp only [Set.mem_ofPred_eq, vs, List.mem_cons, List.not_mem_nil, or_false] at hv hw
    rcases hv with rfl | rfl | rfl <;> rcases hw with rfl | rfl | rfl <;> decide
  have hty : ∀ v ∈ vs, (r v).ty = v.ty := fun v _ => rfl
  have ht : rebound.occurrences ⊆ vs := by decide
  obtain ⟨hrename, -, -, hmodel, hcounts, -⟩ := unaffected_by_identities
  obtain ⟨hrender, hsimplify, hvacuous, hmentions⟩ := hrename r vs rebound hr hty ht
  have hm : ∀ fs ∈ m.featureSets, fs.Anonymous := by
    intro fs hfs
    obtain rfl := List.mem_singleton.1 hfs
    exact hcounts Unit ℤ
  obtain ⟨-, hscore, hcounter⟩ := hmodel Unit ℤ m hm ()
  refine ⟨hr, hty, ht, fun h => absurd h.1 (by decide), hrender, by decide, hsimplify true,
    hvacuous.trans (by decide), (hmentions ⟨1, e⟩ (by decide)).trans (by decide),
    (hmentions ⟨2, e⟩ (by decide)).trans (by decide), hm,
    hscore (hr.mono fun v hv => ht hv) fun v hv => hty v (ht hv), by decide +kernel,
    ((hcounter true).2 41 0 _).trans (by decide +kernel)⟩

end Model

end LogicalForms
