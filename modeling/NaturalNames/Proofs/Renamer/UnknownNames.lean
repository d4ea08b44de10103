import NaturalNames.Proofs.Backoff.Invariants
import NaturalNames.Proofs.Backoff.LongestSuffix
import NaturalNames.Proofs.Renamer.Ranking

/-!
# `NaturalNames.Proofs.Renamer.UnknownNames`: names that a model does not know

To a model all tokens that it does not know are one. Does that make the names one to a renamer? It
does where the open tokens of the contexts are the bare wildcard, so that the name itself is what
the model gets to see. A name inside of a longer token may make one token known and another not.

The argument compares two runs, one for each name.

* A model is `Blind` to two names if exchanging the one for the other, anywhere in an n-gram, leaves
  the probability as it is. A model that knows neither name is (`BackoffModel.blind_languageModel`),
  and so is a mixture of such models (`Mixture.blind_languageModel`).
* In a bare context the two names make n-grams that differ in this way (`forall₂_substitute`), so
  each step of a sum has one outcome for both (`sameOutcome_logProbability`), and the sums do, too
  (`sameOutcome_logLikelihood`).
* Without priors nothing else of a score looks at the name (`scoreCandidate_eq_ok_iff`).
-/

set_option autoImplicit false

namespace NaturalNames

/-! ### Bare contexts -/

/-- The open tokens are the wildcard and nothing else. -/
def NGram.Bare (ngram : NGram) : Prop :=
  ∀ token ∈ ngram.tokens, isOpen token = true → token = wildcard

/-- All contexts are bare. -/
def AllBare (contexts : ContextSet) : Prop := ∀ ngram ∈ contexts.keys, ngram.Bare

/-- Two tokens are the same, or the one name and the other. -/
def Exchanged (a b : String) (s t : String) : Prop := s = t ∨ s = a ∧ t = b

/-- Put into a bare context, two names make n-grams in which the one is exchanged for the other. -/
theorem NGram.Bare.forall₂_substitute {ngram filled filled' : NGram} (h : ngram.Bare) {a b : String}
    (ha : ngram.substitute a = .ok filled) (hb : ngram.substitute b = .ok filled') :
    List.Forall₂ (Exchanged a b) filled.tokens filled'.tokens := by
  rw [(substitute_eq_ok_iff.1 ha).2, (substitute_eq_ok_iff.1 hb).2, List.forall₂_map_left_iff,
    List.forall₂_map_right_iff, List.forall₂_same]
  intro token htoken
  by_cases hopen : isOpen token = true
  · obtain rfl := h token htoken hopen
    rw [if_pos hopen, if_pos hopen, fillToken_wildcard, fillToken_wildcard]
    exact .inr ⟨rfl, rfl⟩
  · rw [if_neg hopen, if_neg hopen]
    exact .inl rfl

/-! ### Outcomes -/

namespace Renamer

variable {α : Type}

/-- What two names come to is the same: one value, no place for a name in one context, or one
probability without a logarithm, that of the two n-grams which the names make of one context. -/
inductive SameOutcome {β : Type} (a b : String) :
    Except (Unscorable α) β → Except (Unscorable α) β → Prop
  | ok (value : β) : SameOutcome a b (.ok value) (.ok value)
  | closed (ngram : NGram) : SameOutcome a b (.error (.closed ngram)) (.error (.closed ngram))
  | improbable {ngram filled filled' : NGram} {p : α} (ha : ngram.substitute a = .ok filled)
      (hb : ngram.substitute b = .ok filled') :
      SameOutcome a b (.error (.improbable filled p)) (.error (.improbable filled' p))

/-- Sums of terms that come out the same do so, too. -/
theorem SameOutcome.foldlM {a b : String} {β γ : Type} {term term' : β → Except (Unscorable α) γ}
    (add : γ → β → γ → γ) {entries : List β}
    (h : ∀ e ∈ entries, SameOutcome a b (term e) (term' e)) (sum : γ) :
    SameOutcome a b (entries.foldlM (fun sum e => do return add sum e (← term e)) sum)
      (entries.foldlM (fun sum e => do return add sum e (← term' e)) sum) := by
  induction entries generalizing sum with
  | nil => exact .ok sum
  | cons e rest ih =>
    obtain ⟨hterm, hrest⟩ := List.forall_mem_cons.1 h
    rw [List.foldlM_cons, List.foldlM_cons]
    generalize term e = outcome, term' e = outcome' at hterm ⊢
    cases hterm with
    | ok value => exact ih hrest (add sum e value)
    | closed ngram => exact .closed ngram
    | improbable ha hb => exact .improbable ha hb

end Renamer

/-! ### Models -/

variable {α : Type} [Arithmetic α]

/-- Exchanging the one name for the other in an n-gram changes no probability. -/
def LanguageModel.Blind (model : LanguageModel α) (a b : String) : Prop :=
  ∀ ngram ngram' : NGram, List.Forall₂ (Exchanged a b) ngram.tokens ngram'.tokens →
    model.probability ngram = model.probability ngram'

namespace BackoffModel

variable {model : BackoffModel} {a b : String}

/-- A model finds n-grams equally likely that differ in unknown names only. -/
theorem probability_eq_of_exchanged (horder : 0 < model.order) (ha : model.isUnknown a = true)
    (hb : model.isUnknown b = true) {ngram ngram' : NGram}
    (h : List.Forall₂ (Exchanged a b) ngram.tokens ngram'.tokens) :
    (model.probability ngram : α) = model.probability ngram' := by
  have htokens : List.Forall₂
      (fun s t => s = t ∨ model.isUnknown s = true ∧ model.isUnknown t = true)
      ngram.tokens ngram'.tokens := by
    refine h.imp fun s t hst => hst.imp_right ?_
    rintro ⟨rfl, rfl⟩
    exact ⟨ha, hb⟩
  refine probability_eq_of_idsOf_eq model horder ?_
  rw [List.rtake, List.rtake, htokens.length_eq]
  exact idsOf_eq_of_forall₂ (List.forall₂_drop _ htokens)

/-- A model is blind to which of two unknown names it is asked about. -/
theorem blind_languageModel (horder : 0 < model.order) (ha : model.isUnknown a = true)
    (hb : model.isUnknown b = true) : (model.languageModel : LanguageModel α).Blind a b :=
  fun _ _ h => probability_eq_of_exchanged horder ha hb h

end BackoffModel

/-- A mixture is blind to two names that neither of its models knows. -/
theorem Mixture.blind_languageModel {mixture : Mixture} {a b : String}
    (hglobal : 0 < mixture.globalModel.order) (hlocal : 0 < mixture.localModel.order)
    (ha : mixture.globalModel.isUnknown a = true ∧ mixture.localModel.isUnknown a = true)
    (hb : mixture.globalModel.isUnknown b = true ∧ mixture.localModel.isUnknown b = true) :
    (mixture.languageModel : LanguageModel α).Blind a b := by
  intro ngram ngram' h
  show (mixture.probability ngram : α) = mixture.probability ngram'
  rw [probability, probability, BackoffModel.probability_suffix, BackoffModel.probability_suffix,
    BackoffModel.probability_eq_of_exchanged hglobal ha.1 hb.1 h,
    BackoffModel.probability_eq_of_exchanged hlocal ha.2 hb.2 h]

/-! ### Two runs -/

namespace Renamer

variable {renamer : Renamer α} {contexts : ContextSet} {a b : String}

/-- On a bare n-gram two names that the model is blind to have the same logarithm, or both have
none. -/
theorem sameOutcome_logProbability (hblind : renamer.model.Blind a b) {ngram : NGram}
    (hbare : ngram.Bare) :
    SameOutcome a b (renamer.logProbability a ngram) (renamer.logProbability b ngram) := by
  rw [logProbability, logProbability]
  -- With an open token both names are filled in, and the model does not tell the results apart.
  by_cases hopen : ∃ token ∈ ngram.tokens, NGram.isOpen token = true
  · obtain ⟨filled, ha⟩ := NGram.exists_substitute_eq_ok hopen a
    obtain ⟨filled', hb⟩ := NGram.exists_substitute_eq_ok hopen b
    have hp : renamer.model.probability filled = renamer.model.probability filled' :=
      hblind filled filled' (hbare.forall₂_substitute ha hb)
    simp only [ha, hb, hp]
    split
    next => exact .improbable ha hb
    next => exact .ok _
  · -- Without one both fail, with the same error.
    have hclosed (name : String) : ngram.substitute name = .error (.missingWildcard ngram.tokens) :=
      if_neg (mt List.any_eq_true.1 hopen)
    simp only [hclosed]
    exact .closed ngram

/-- On bare contexts two names that the model is blind to have the same sum, or both have none. -/
theorem sameOutcome_logLikelihood (hblind : renamer.model.Blind a b) (hbare : AllBare contexts) :
    SameOutcome a b (renamer.logLikelihood contexts a) (renamer.logLikelihood contexts b) := by
  have hterm : ∀ e ∈ contexts.entries,
      SameOutcome a b (renamer.logProbability a e.1) (renamer.logProbability b e.1) := fun e he =>
    sameOutcome_logProbability hblind (hbare e.1 (List.mem_map_of_mem he))
  exact SameOutcome.foldlM (fun sum (e : NGram × Nat) bits => sum + bits * Arithmetic.ofNat e.2)
    hterm _

variable {scope : Option Scope} {r : Renaming α}

/-- Two names that the model is blind to have the same score on bare contexts, if no prior tells
them apart. -/
theorem scoreCandidate_eq_ok_iff (hpriors : renamer.priors = [])
    (hblind : renamer.model.Blind a b) (hbare : AllBare contexts) (hr : r.name = a) :
    renamer.scoreCandidate contexts scope a = .ok r ↔
      renamer.scoreCandidate contexts scope b = .ok { r with name := b } := by
  subst hr
  have hsame := sameOutcome_logLikelihood hblind hbare
  have hprice (name : String) (scope : Scope) :
      renamer.priorCost name scope = Arithmetic.sum [] := by
    rw [priorCost, hpriors, List.map_nil]
  unfold scoreCandidate
  -- The price is the same without priors, so the two scores differ by the log-likelihood only.
  generalize renamer.logLikelihood contexts r.name = outcome,
    renamer.logLikelihood contexts b = outcome' at hsame ⊢
  cases hsame with
  | ok bits =>
    cases r
    cases renamer.mode <;> cases scope <;> simp [Except.map, hprice]
  -- Neither name gets a score.
  | closed ngram => simp [Except.map]
  | improbable => simp [Except.map]

/-- If contexts are bare, so is what is scored in their place. -/
theorem allBare_scoredContexts (h : AllBare contexts) : AllBare (scoredContexts contexts) := by
  rw [scoredContexts]
  split
  · intro ngram hngram token htoken _
    rw [keys_loneContext, List.mem_singleton] at hngram
    rw [hngram] at htoken
    exact List.mem_singleton.1 htoken
  · exact h

/-- Among candidates with both names, a score of the one is a score of the other. -/
theorem mem_scoreCandidates_exchange (hpriors : renamer.priors = [])
    (hblind : renamer.model.Blind a b) (hbare : AllBare contexts) {candidates : SortedSet String}
    (ha : a ∈ candidates.toList) (hb : b ∈ candidates.toList) (hr : r.name = a) :
    r ∈ (renamer.scoreCandidates contexts candidates scope).toList ↔
      { r with name := b } ∈ (renamer.scoreCandidates contexts candidates scope).toList := by
  rw [mem_scoreCandidates_iff, mem_scoreCandidates_iff, hr]
  exact and_congr (iff_of_true ha hb)
    (scoreCandidate_eq_ok_iff hpriors hblind (allBare_scoredContexts hbare) hr)

/-! ### Models from training -/

/-- No renamer with this model tells two names apart in bare contexts. -/
structure Indistinguishable (model : LanguageModel α) (a b : String) : Prop where
  /-- Put into a context, both have one probability. -/
  probability_eq : ∀ ngram : NGram, ngram.Bare → ∀ filled filled' : NGram,
    ngram.substitute a = .ok filled → ngram.substitute b = .ok filled' →
    model.probability filled = model.probability filled'
  /-- The sums over all contexts come out the same. -/
  logLikelihood : ∀ renamer : Renamer α, renamer.model = model →
    ∀ contexts : ContextSet, AllBare contexts →
      SameOutcome a b (renamer.logLikelihood contexts a) (renamer.logLikelihood contexts b)
  /-- Without priors a score of the one name is a score of the other. -/
  mem_scores_iff : ∀ renamer : Renamer α, renamer.model = model → renamer.priors = [] →
    ∀ contexts : ContextSet, AllBare contexts →
    ∀ candidates : SortedSet String, a ∈ candidates.toList → b ∈ candidates.toList →
    ∀ (scope : Option Scope) (r : Renaming α), r.name = a →
      (r ∈ (renamer.scoreCandidates contexts candidates scope).toList ↔
        { r with name := b } ∈ (renamer.scoreCandidates contexts candidates scope).toList)

/-- A model that is blind to two names cannot tell them apart in anything that is asked of it. -/
theorem indistinguishable_of_blind {model : LanguageModel α} (hblind : model.Blind a b) :
    Indistinguishable model a b where
  probability_eq _ hbare filled filled' ha hb :=
    hblind filled filled' (hbare.forall₂_substitute ha hb)
  logLikelihood := by
    rintro renamer rfl contexts hbare
    exact sameOutcome_logLikelihood hblind hbare
  mem_scores_iff := by
    rintro renamer rfl hpriors contexts hbare candidates ha hb scope r hr
    exact mem_scoreCandidates_exchange hpriors hblind hbare ha hb hr

end Renamer

open BackoffModel Renamer Training

/-- No model from a configuration knows the symbol for unknown names. -/
theorem BackoffModel.Obtained.isUnknown_unknownSymbol {config : ModelConfig} {model : BackoffModel}
    (h : Obtained config model) : model.isUnknown unknownSymbol = true := by
  have hvocabulary := h.consistent_vocabulary
  exact decide_eq_true (hvocabulary.idOf_eq hvocabulary.token?_unknownId)

/-- **Names that a model does not know are one to a renamer.** Take a model from a configuration and
two names that it does not know, one of which may be the symbol for unknown names; or take a mixture
of two such models and two names that neither of them knows. In bare contexts no renamer with this
model tells the names apart, whatever scores are computed in. A context has the same probability
with either name, so the sums over all contexts are equal, or both are missing for the same reason.
Without priors a score of the one name is a score of the other, on as many contexts.

A ranking always has the current name and the symbol among its candidates. So a current name that is
not known scores as the symbol does, or neither has a score. -/
theorem indistinguishable_of_unknown :
    (∀ (config : ModelConfig) (model : BackoffModel), Obtained config model →
      model.isUnknown unknownSymbol = true ∧
      ∀ a b, model.isUnknown a = true → model.isUnknown b = true →
        Indistinguishable (model.languageModel : LanguageModel α) a b) ∧
    (∀ (config config' : ModelConfig) (globalModel localModel : BackoffModel) (weight : Float)
      (mixture : Mixture), Obtained config globalModel → Obtained config' localModel →
      Mixture.ofModels globalModel localModel weight = .ok mixture →
      ∀ a b, (globalModel.isUnknown a = true ∧ localModel.isUnknown a = true) →
        (globalModel.isUnknown b = true ∧ localModel.isUnknown b = true) →
        Indistinguishable (mixture.languageModel : LanguageModel α) a b) ∧
    ∀ (renamer : Renamer α) (current : String),
      Indistinguishable renamer.model current unknownSymbol → renamer.priors = [] →
      ∀ contexts : ContextSet, AllBare contexts →
      ∀ (scope : Option Scope) (r : Renaming α), r.name = current →
        (r ∈ (renamer.rankOn contexts current scope).toList ↔
          { r with name := unknownSymbol } ∈ (renamer.rankOn contexts current scope).toList) := by
  refine ⟨?_, ?_, ?_⟩
  · -- A single model looks names up in its vocabulary, where both are unknown.
    intro config model h
    refine ⟨h.isUnknown_unknownSymbol, fun a b ha hb => indistinguishable_of_blind ?_⟩
    exact blind_languageModel h.wellFormed.order_pos ha hb
  · -- A mixture asks two models, each blind to the difference.
    intro config config' globalModel localModel weight mixture h h' hmixture a b ha hb
    obtain ⟨-, rfl⟩ := Mixture.ofModels_eq_ok_iff.1 hmixture
    refine indistinguishable_of_blind ?_
    exact Mixture.blind_languageModel h.wellFormed.order_pos h'.wellFormed.order_pos ha hb
  · -- In a ranking both names are in every pool, so neither can be missing by the choice of pool.
    intro renamer current hsame hpriors contexts hbare scope r hr
    have hcurrent : current ∈ (renamer.candidatePool contexts current).toList :=
      (mem_candidatePool_iff ..).2 (.inr (.inl rfl))
    have hunknown : unknownSymbol ∈ (renamer.candidatePool contexts current).toList :=
      (mem_candidatePool_iff ..).2 (.inl rfl)
    exact hsame.mem_scores_iff renamer rfl hpriors contexts hbare _ hcurrent hunknown scope r hr

/-- Goes by the model of the letters alone. -/
def lettersRenamer : Renamer Float where
  model := (inOneGo letters pairConfig pairUnits).model.languageModel
  tokenizer := letters
  priors := []
  config := {}
  mode := .crossEntropy

/-- Two contexts, the second one with two places for a name. -/
def lettersContexts : ContextSet :=
  .ofList [(⟨["a", wildcard], by decide⟩, 3), (⟨[wildcard, "=", wildcard], by decide⟩, 1)]

/-- The letter `b` came once, which is too rarely to be known, and `q` never. Where `b` stands it is
ranked with a score, and the symbol for unknown names with the same score. Mixing in a model that
knows nothing does not tell `b` from `q` either. -/
theorem indistinguishable_of_unknown_letters :
    AllBare lettersContexts ∧
    (∃ r ∈ (lettersRenamer.rankOn lettersContexts "b" none).toList, r.name = "b" ∧
      { r with name := unknownSymbol } ∈
        (lettersRenamer.rankOn lettersContexts "b" none).toList) ∧
    ∃ (model model' : BackoffModel) (mixture : Mixture), Obtained pairConfig model ∧
      Obtained { pairConfig with order := 3 } model' ∧
      Mixture.ofModels model' model 0.25 = .ok mixture ∧
      Indistinguishable (mixture.languageModel : LanguageModel Float) "b" "q" := by
  have hbare : AllBare lettersContexts := by
    unfold AllBare NGram.Bare
    decide +kernel
  have hopen : AllOpen lettersContexts := by
    unfold AllOpen
    decide +kernel
  have hscorable : lettersRenamer.Scorable lettersContexts "b" := by decide +kernel
  obtain ⟨hsingle, hmixed, hranked⟩ := indistinguishable_of_unknown (α := Float)
  refine ⟨hbare, ?_, ?_⟩
  · have hranks : lettersRenamer.RanksScorable lettersContexts "b" none
        (lettersRenamer.rankOn lettersContexts "b" none) := ranksScorable_rankOn hopen "b"
    obtain ⟨r, hr, hb⟩ := List.mem_map.1
      ((hranks.mem_names_iff "b").2 ⟨(mem_candidatePool_iff ..).2 (.inr (.inl rfl)), hscorable⟩)
    obtain ⟨hunknown, hsame⟩ := hsingle _ _ obtained_letters
    have hb' : Indistinguishable lettersRenamer.model "b" unknownSymbol :=
      hsame "b" unknownSymbol (by decide +kernel) hunknown
    exact ⟨r, hr, hb, (hranked lettersRenamer "b" hb' rfl _ hbare none r hb).1 hr⟩
  · -- An untrained model of another order, mixed with the trained one.
    let model' : BackoffModel := ⟨3, pairConfig.backoffFactor, .unknownOnly, .empty⟩
    have hmodel' : Obtained { pairConfig with order := 3 } model' := .untrained rfl
    have hmixture : Mixture.ofModels model' (inOneGo letters pairConfig pairUnits).model 0.25
        = .ok ⟨model', _, 0.25⟩ := Mixture.ofModels_eq_ok_iff.2 ⟨by decide, rfl⟩
    refine ⟨_, model', _, obtained_letters, hmodel', hmixture, ?_⟩
    exact hmixed _ _ _ _ _ _ hmodel' obtained_letters hmixture "b" "q"
      ⟨by decide +kernel, by decide +kernel⟩ ⟨by decide +kernel, by decide +kernel⟩

end NaturalNames
