import NaturalNames.Proofs.Backoff.Probability
import NaturalNames.Proofs.Number.Zeros
import NaturalNames.Proofs.Outcome
import NaturalNames.Strategy

/-!
# `NaturalNames.Proofs.Strategy`: strategies with their parts switched off

A strategy names a model, a mode and the priors to use, and `build` puts the renamer together from
them. Which priors a renamer has depends on nothing else of its strategy (`priorsOf_eq`). So a
strategy that chooses among the priors and takes one of them is the strategy of that prior, and one
that takes none is the strategy without priors (`build_congr`).

A mixture with weight zero is the local model, but only in exact arithmetic
(`languageModel_of_weight_eq_zero`). The probability of the global model is computed all the same
and multiplied by zero. In floats that leaves NaN where it is not finite.

`Obstacle` lists what keeps a renamer from being built. Every error of `build` is an obstacle
(`obstacle_of_build`), and with an obstacle there is no renamer (`not_obstacle_of_build`).
-/

set_option autoImplicit false

namespace NaturalNames

/-! ### Configurations -/

/-- The configurations that pass validation. -/
theorem RenamerConfig.validate_eq_ok_iff {config : RenamerConfig} :
    config.validate = .ok () ↔ config.maxCandidates ≠ 0 ∧
      ¬ (Number.isFinite config.priorPenalty = false ∨ config.priorPenalty < 0) := by
  rw [validate]
  split
  next hzero => simp [hzero]
  next hpositive =>
    split
    next hpenalty => simp [hpenalty]
    next hpenalty => exact ⟨fun _ => ⟨hpositive, hpenalty⟩, fun _ => rfl⟩

namespace Strategy

variable {α : Type} [Arithmetic α] {resources : Resources} {config : RenamerConfig}
  {strategy strategy' : Strategy}

/-! ### Priors -/

/-- Whether a strategy asks for the grammar prior. -/
def usesGrammar : Strategy → Bool
  | .grammar => true
  | .allPriors useGrammar _ => useGrammar
  | _ => false

/-- Whether a strategy asks for the type prior. -/
def usesTypes : Strategy → Bool
  | .types => true
  | .allPriors _ useTypes => useTypes
  | _ => false

/-- A prior if it is asked for. -/
def priorIf (used : Bool) (prior : Except Error (NamePrior α)) :
    Except Error (List (NamePrior α)) :=
  if used then prior.map fun prior => [prior] else .ok []

/-- The priors are those that the strategy asks for, types in front. -/
theorem priorsOf_eq (resources : Resources) (strategy : Strategy) :
    strategy.priorsOf (α := α) resources = (do
      let types ← priorIf strategy.usesTypes (requireTypes resources)
      let grammar ← priorIf strategy.usesGrammar (requireGrammar resources)
      return types ++ grammar) := by
  -- A strategy of one prior has the empty list in place of the other.
  cases strategy with
  | grammar =>
    show (requireGrammar resources).map (fun prior => [prior]) = (do
      let grammar ← (requireGrammar resources).map fun prior => [prior]
      return [] ++ grammar)
    cases requireGrammar (α := α) resources <;> rfl
  | types =>
    show (requireTypes resources).map (fun prior => [prior]) = (do
      let types ← (requireTypes resources).map fun prior => [prior]
      return types ++ [])
    cases requireTypes (α := α) resources <;> rfl
  | allPriors useGrammar useTypes => cases useGrammar <;> cases useTypes <;> rfl
  | _ => rfl

omit [Arithmetic α] in
/-- A prior that is not used cannot be missed. -/
theorem priorIf_eq_error_iff {used : Bool} {prior : Except Error (NamePrior α)} {e : Error} :
    priorIf used prior = .error e ↔ used = true ∧ prior = .error e := by
  cases used <;> simp [priorIf, except_map_eq_error_iff]

/-- The grammar prior fails only where it is missing. -/
theorem requireGrammar_eq_error_iff {e : Error} :
    requireGrammar resources = (.error e : Except Error (NamePrior α)) ↔
      resources.grammarPrior = none ∧ e = .config .noGrammarPrior := by
  rw [requireGrammar]
  split <;> simp_all [eq_comm]

/-- The type prior fails only where it is missing. -/
theorem requireTypes_eq_error_iff {e : Error} :
    requireTypes resources = (.error e : Except Error (NamePrior α)) ↔
      resources.typePrior = none ∧ e = .config .noTypePrior := by
  rw [requireTypes]
  split <;> simp_all [eq_comm]

/-! ### Building from parts -/

/-- Strategies that name the same parts build the same renamer, or fail with the same error. -/
theorem build_congr (hmodel : strategy.modelOf (α := α) resources = strategy'.modelOf resources)
    (hgrammar : strategy.usesGrammar = strategy'.usesGrammar)
    (htypes : strategy.usesTypes = strategy'.usesTypes)
    (hmode : strategy.modeOf = strategy'.modeOf) :
    strategy.build (α := α) resources config = strategy'.build resources config := by
  rw [build, build, hmodel, hmode, priorsOf_eq, priorsOf_eq, hgrammar, htypes]

/-- A strategy builds what its parts give. -/
theorem build_eq_ok_iff {renamer : Renamer α} :
    strategy.build resources config = .ok renamer ↔
      ∃ (model : LanguageModel α) (priors : List (NamePrior α)),
        strategy.modelOf resources = .ok model ∧ config.validate = .ok () ∧
        strategy.priorsOf resources = .ok priors ∧
        renamer = ⟨model, resources.tokenizer, priors, config, strategy.modeOf⟩ := by
  rw [build, except_bind_eq_ok_iff]
  constructor
  · rintro ⟨model, hmodel, h⟩
    obtain ⟨renamer', hofModel, h⟩ := except_bind_eq_ok_iff.1 h
    obtain ⟨_, hvalid, rfl⟩ := except_map_eq_ok_iff.1 hofModel
    obtain ⟨priors, hpriors, h⟩ := except_bind_eq_ok_iff.1 h
    exact ⟨model, priors, hmodel, hvalid, hpriors, (Except.ok.inj h).symm⟩
  · rintro ⟨model, priors, hmodel, hvalid, hpriors, rfl⟩
    exact ⟨model, hmodel, except_bind_eq_ok_iff.2 ⟨_, except_map_eq_ok_iff.2 ⟨_, hvalid, rfl⟩,
      except_bind_eq_ok_iff.2 ⟨priors, hpriors, rfl⟩⟩⟩

/-- All priors, with both switched off, are none. -/
theorem build_allPriors_none :
    (allPriors false false).build (α := α) resources config = base.build resources config :=
  build_congr rfl rfl rfl rfl

/-- All priors, with the types switched off, are the grammar. -/
theorem build_allPriors_grammar :
    (allPriors true false).build (α := α) resources config = grammar.build resources config :=
  build_congr rfl rfl rfl rfl

/-- All priors, with the grammar switched off, are the types. -/
theorem build_allPriors_types :
    (allPriors false true).build (α := α) resources config = types.build resources config :=
  build_congr rfl rfl rfl rfl

end Strategy

/-! ### Weight zero -/

/-- With the weight zero a mixture is its local model. -/
theorem Mixture.languageModel_of_weight_eq_zero {mixture : Mixture}
    (h : Number.exact mixture.weight = 0) :
    (mixture.languageModel : LanguageModel ℝ) = mixture.localModel.languageModel := by
  have hprobability : (mixture.probability : NGram → ℝ) = mixture.localModel.probability := by
    funext ngram
    rw [Mixture.probability_real, h, Rat.cast_zero, zero_mul, sub_zero, one_mul, zero_add]
  rw [Mixture.languageModel, BackoffModel.languageModel, hprobability]

namespace Strategy

variable {α : Type} [Arithmetic α] {resources : Resources} {config : RenamerConfig}
  {strategy : Strategy}

/-- Of the two zeros either is a weight. -/
theorem modelOf_interpolated_zero {weight : Float} (hweight : (weight == 0) = true)
    (hmodel : resources.globalModel ≠ none) :
    (interpolated weight).modelOf (α := ℝ) resources = base.modelOf resources := by
  obtain ⟨globalModel, hglobal⟩ := Option.ne_none_iff_exists'.1 hmodel
  -- There are two floats that equal zero, and both are allowed as a weight.
  have hmixture : Mixture.ofModels globalModel resources.model weight
      = .ok ⟨globalModel, resources.model, weight⟩ := by
    apply Mixture.ofModels_eq_ok_iff.2
    rcases Number.eq_zero_of_beq hweight with rfl | rfl
    · exact ⟨by decide, rfl⟩
    · exact ⟨by decide, rfl⟩
  have hexact : Number.exact weight = 0 := by
    rcases Number.eq_zero_of_beq hweight with rfl | rfl
    · exact Number.exact_float_zero
    · exact Number.exact_float_negative_zero
  rw [modelOf, hglobal]
  -- With weight zero the mixture is the local model.
  show (Mixture.ofModels globalModel resources.model weight).map Mixture.languageModel = _
  rw [hmixture]
  exact congrArg Except.ok (Mixture.languageModel_of_weight_eq_zero hexact)

/-- A mixture in which the global model has no weight is built from the local one. -/
theorem build_interpolated_zero {weight : Float} (hweight : (weight == 0) = true)
    (hmodel : resources.globalModel ≠ none) :
    (interpolated weight).build (α := ℝ) resources config = base.build resources config :=
  build_congr (modelOf_interpolated_zero hweight hmodel) rfl rfl rfl

/-! ### What keeps a renamer from being built -/

/-- What keeps a strategy from building a renamer, with the error for it. -/
inductive Obstacle (resources : Resources) (config : RenamerConfig) : Strategy → Error → Prop
  | maxCandidates {strategy : Strategy} (h : config.maxCandidates = 0) :
    Obstacle resources config strategy (.config .maxCandidatesZero)
  | priorPenalty {strategy : Strategy}
    (h : Number.isFinite config.priorPenalty = false ∨ config.priorPenalty < 0) :
    Obstacle resources config strategy (.config (.priorPenalty config.priorPenalty))
  | weight {weight : Float} (h : ¬ (0 ≤ weight ∧ weight ≤ 1)) :
    Obstacle resources config (.interpolated weight) (.config (.mixtureWeight weight))
  | globalModel {weight : Float} (h : resources.globalModel = none) :
    Obstacle resources config (.interpolated weight) (.config .noGlobalModel)
  | grammarPrior {strategy : Strategy} (huses : strategy.usesGrammar = true)
    (h : resources.grammarPrior = none) :
    Obstacle resources config strategy (.config .noGrammarPrior)
  | typePrior {strategy : Strategy} (huses : strategy.usesTypes = true)
    (h : resources.typePrior = none) :
    Obstacle resources config strategy (.config .noTypePrior)

/-- Whatever fails while the model is made is an obstacle. -/
theorem obstacle_of_modelOf {e : Error}
    (h : strategy.modelOf resources = (.error e : Except Error (LanguageModel α))) :
    Obstacle resources config strategy e := by
  -- Only the interpolated strategy builds a model that can fail.
  cases strategy with
  | interpolated weight =>
    rw [modelOf] at h
    split at h
    next hnone =>
      cases h
      exact .globalModel hnone
    next globalModel _ =>
      rw [except_map_eq_error_iff, Mixture.ofModels] at h
      split at h
      · cases h
      next hweight =>
        cases h
        exact .weight hweight
  | _ => cases h

/-- A configuration that is not valid is an obstacle. -/
theorem obstacle_of_validate {e : Error} (h : config.validate = .error e) :
    Obstacle resources config strategy e := by
  rw [RenamerConfig.validate] at h
  split at h
  next hzero =>
    cases h
    exact .maxCandidates hzero
  next =>
    split at h
    next hpenalty =>
      cases h
      exact .priorPenalty hpenalty
    · cases h

/-- A prior that is missed is an obstacle. -/
theorem obstacle_of_priorsOf {e : Error}
    (h : strategy.priorsOf resources = (.error e : Except Error (List (NamePrior α)))) :
    Obstacle resources config strategy e := by
  rw [priorsOf_eq] at h
  rcases except_bind_eq_error_iff.1 h with htypes | ⟨types, -, h⟩
  · obtain ⟨huses, hrequire⟩ := priorIf_eq_error_iff.1 htypes
    obtain ⟨hnone, rfl⟩ := requireTypes_eq_error_iff.1 hrequire
    exact .typePrior huses hnone
  rcases except_bind_eq_error_iff.1 h with hgrammar | ⟨grammar, -, h⟩
  · obtain ⟨huses, hrequire⟩ := priorIf_eq_error_iff.1 hgrammar
    obtain ⟨hnone, rfl⟩ := requireGrammar_eq_error_iff.1 hrequire
    exact .grammarPrior huses hnone
  · cases h

/-- So building fails only because of an obstacle. -/
theorem obstacle_of_build {e : Error}
    (h : strategy.build resources config = (.error e : Except Error (Renamer α))) :
    Obstacle resources config strategy e := by
  -- The steps of the build, in the order in which they are taken.
  rcases except_bind_eq_error_iff.1 h with hmodel | ⟨model, -, h⟩
  · exact obstacle_of_modelOf hmodel
  rcases except_bind_eq_error_iff.1 h with hofModel | ⟨renamer, -, h⟩
  · exact obstacle_of_validate (except_map_eq_error_iff.1 hofModel)
  rcases except_bind_eq_error_iff.1 h with hpriors | ⟨priors, -, h⟩
  · exact obstacle_of_priorsOf hpriors
  · cases h

/-- A strategy that builds a renamer has every part that it uses. -/
theorem not_obstacle_of_build {renamer : Renamer α} {e : Error}
    (h : strategy.build resources config = .ok renamer) :
    ¬ Obstacle resources config strategy e := by
  obtain ⟨model, priors, hmodel, hvalid, hpriors, -⟩ := build_eq_ok_iff.1 h
  have hconfig := RenamerConfig.validate_eq_ok_iff.1 hvalid
  rw [priorsOf_eq] at hpriors
  obtain ⟨types, htypes, hpriors⟩ := except_bind_eq_ok_iff.1 hpriors
  obtain ⟨grammar, hgrammar, -⟩ := except_bind_eq_ok_iff.1 hpriors
  -- Every obstacle would have stopped one of the steps.
  intro hobstacle
  cases hobstacle with
  | maxCandidates hzero => exact hconfig.1 hzero
  | priorPenalty hpenalty => exact hconfig.2 hpenalty
  | weight hweight =>
    rw [modelOf] at hmodel
    split at hmodel
    · cases hmodel
    · obtain ⟨mixture, hmixture, -⟩ := except_map_eq_ok_iff.1 hmodel
      exact hweight (Mixture.ofModels_eq_ok_iff.1 hmixture).1
  | globalModel hnone =>
    rw [modelOf, hnone] at hmodel
    cases hmodel
  | grammarPrior huses hnone =>
    rw [priorIf_eq_error_iff.2 ⟨huses, requireGrammar_eq_error_iff.2 ⟨hnone, rfl⟩⟩] at hgrammar
    cases hgrammar
  | typePrior huses hnone =>
    rw [priorIf_eq_error_iff.2 ⟨huses, requireTypes_eq_error_iff.2 ⟨hnone, rfl⟩⟩] at htypes
    cases htypes

/-- A strategy fails to build a renamer exactly when something is in its way. -/
theorem exists_build_eq_error_iff :
    (∃ e, strategy.build resources config = (.error e : Except Error (Renamer α))) ↔
      ∃ e, Obstacle resources config strategy e := by
  constructor
  · rintro ⟨e, h⟩
    exact ⟨e, obstacle_of_build h⟩
  · rintro ⟨e, hobstacle⟩
    cases h : strategy.build (α := α) resources config with
    | error e' => exact ⟨e', rfl⟩
    | ok renamer => exact absurd hobstacle (not_obstacle_of_build h)

/-! ### Strategies that coincide -/

/-- Two attempts to build a renamer come to the same. Either both fail, for the same reason, or the
renamers rank alike, whatever is ranked. -/
structure RankAlike (attempt attempt' : Except Error (Renamer α)) : Prop where
  builds_iff : (∃ renamer, attempt = .ok renamer) ↔ ∃ renamer, attempt' = .ok renamer
  error_iff : ∀ e, attempt = .error e ↔ attempt' = .error e
  rank_eq : ∀ renamer renamer', attempt = .ok renamer → attempt' = .ok renamer' →
    ∀ scope identifier, renamer.rank scope identifier = renamer'.rank scope identifier
  rankAt_eq : ∀ renamer renamer', attempt = .ok renamer → attempt' = .ok renamer' →
    ∀ tokens positions current,
      renamer.rankAt tokens positions current = renamer'.rankAt tokens positions current
  rankTokenAt_eq : ∀ renamer renamer', attempt = .ok renamer → attempt' = .ok renamer' →
    ∀ tokens index, renamer.rankTokenAt tokens index = renamer'.rankTokenAt tokens index

/-- Attempts that are the same rank alike. -/
theorem RankAlike.of_eq {attempt attempt' : Except Error (Renamer α)} (h : attempt = attempt') :
    RankAlike attempt attempt' := by
  subst h
  have hsame : ∀ renamer renamer', attempt = .ok renamer → attempt = .ok renamer' →
      renamer = renamer' := fun renamer renamer' h h' => Except.ok.inj (h.symm.trans h')
  constructor
  · exact Iff.rfl
  · exact fun e => Iff.rfl
  · intro renamer renamer' h h' scope identifier
    rw [hsame renamer renamer' h h']
  · intro renamer renamer' h h' tokens positions current
    rw [hsame renamer renamer' h h']
  · intro renamer renamer' h h' tokens index
    rw [hsame renamer renamer' h h']

open Training

/-- **A strategy with a part switched off is the strategy without it.** Take any resources and any
configuration. To choose no prior is to use the model alone, and to choose one prior is the strategy
of that prior: one fails where the other fails and for the same reason, and the renamers rank alike.
That holds in floats as well. A mixture with the weight zero, of whatever global model, is the local
model in exact arithmetic.

There is a renamer unless something is in the way. The configuration may be invalid or the weight
out of range, or there is no global model, or no prior, and the strategy uses it. The error names
which. -/
theorem degenerate_strategies (resources : Resources) (config : RenamerConfig) :
    (∀ (β : Type) [Arithmetic β],
      RankAlike ((allPriors false false).build resources config : Except Error (Renamer β))
        (base.build resources config) ∧
      RankAlike ((allPriors true false).build resources config : Except Error (Renamer β))
        (grammar.build resources config) ∧
      RankAlike ((allPriors false true).build resources config : Except Error (Renamer β))
        (types.build resources config)) ∧
    (∀ weight : Float, (weight == 0) = true → resources.globalModel ≠ none →
      RankAlike ((interpolated weight).build resources config : Except Error (Renamer ℝ))
        (base.build resources config)) ∧
    (∀ (β : Type) [Arithmetic β] (strategy : Strategy),
      ((∃ e, strategy.build resources config = (.error e : Except Error (Renamer β))) ↔
        ∃ e, Obstacle resources config strategy e) ∧
      ∀ e, strategy.build resources config = (.error e : Except Error (Renamer β)) →
        Obstacle resources config strategy e) := by
  constructor
  · intro β _
    exact ⟨.of_eq build_allPriors_none, .of_eq build_allPriors_grammar,
      .of_eq build_allPriors_types⟩
  constructor
  · intro weight hweight hmodel
    exact .of_eq (build_interpolated_zero hweight hmodel)
  · intro β _ strategy
    exact ⟨exists_build_eq_error_iff, fun e => obstacle_of_build⟩

/-- The model of the letters is mixed with one of another order, and there are no priors. The weight
is the zero below zero. -/
theorem degenerate_strategies_letters :
    ∃ (resources : Resources) (globalModel : BackoffModel) (mixed plain : Renamer ℝ),
      resources.globalModel = some globalModel ∧ globalModel.order ≠ resources.model.order ∧
      ((-0 : Float) == 0) = true ∧
      (interpolated (-0)).build resources {} = .ok mixed ∧ base.build resources {} = .ok plain ∧
      (∀ scope identifier, mixed.rank scope identifier = plain.rank scope identifier) ∧
      (allPriors true false).build resources {}
        = (.error (.config .noGrammarPrior) : Except Error (Renamer Float)) ∧
      Obstacle resources {} .grammar (.config .noGrammarPrior) := by
  let model := (inOneGo letters pairConfig pairUnits).model
  let resources : Resources :=
    { model := model, globalModel := some { model with order := 3 }, tokenizer := letters }
  have herror : grammar.build resources {}
      = (.error (.config .noGrammarPrior) : Except Error (Renamer Float)) := rfl
  obtain ⟨hpriors, hmixture, hfails⟩ := degenerate_strategies resources {}
  -- The negative zero, which is another float than `0`, switches the mixture off as well.
  have halike := hmixture (-0) (by decide) (Option.some_ne_none _)
  obtain ⟨plain, hplain⟩ : ∃ plain : Renamer ℝ, base.build resources {} = .ok plain :=
    ⟨_, build_eq_ok_iff.2 ⟨_, _, rfl, by decide, rfl, rfl⟩⟩
  obtain ⟨mixed, hmixed⟩ := halike.builds_iff.2 ⟨plain, hplain⟩
  exact ⟨resources, _, mixed, plain, rfl, by decide, by decide, hmixed, hplain,
    halike.rank_eq mixed plain hmixed hplain, ((hpriors Float).2.1.error_iff _).2 herror,
    (hfails Float .grammar).2 _ herror⟩

end Strategy
end NaturalNames
