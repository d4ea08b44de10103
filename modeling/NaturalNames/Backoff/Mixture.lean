import NaturalNames.Backoff

/-!
# `NaturalNames.Backoff.Mixture`: two models mixed

A model of one project has seen little, a model of much code knows nothing of the project. A
mixture takes its names from the first and averages the probabilities of both.
-/

set_option autoImplicit false

namespace NaturalNames

/-- A model of the project mixed with one of other code. -/
structure Mixture where
  globalModel : BackoffModel
  localModel : BackoffModel
  /-- The weight of the global model. -/
  weight : Float

namespace Mixture

/-- The weight that is taken where none is given. -/
def defaultWeight : Float := 0.2

/-- Mixes two models. A weight is between zero and one. -/
def ofModels (globalModel localModel : BackoffModel) (weight : Float) : Except Error Mixture :=
  if 0 ≤ weight ∧ weight ≤ 1 then .ok ⟨globalModel, localModel, weight⟩
  else .error (.config (.mixtureWeight weight))

/-- The weighted mean of the two probabilities. -/
def probability {α : Type} [Arithmetic α] (mixture : Mixture) (ngram : NGram) : α :=
  let weight : α := Arithmetic.ofFloat mixture.weight
  weight * mixture.globalModel.probability (ngram.suffix mixture.globalModel.order) +
    (Arithmetic.ofNat 1 - weight) * mixture.localModel.probability ngram

/-- The mixture as a renamer sees it. Names come from the local model alone. -/
def languageModel {α : Type} [Arithmetic α] (mixture : Mixture) : LanguageModel α where
  order := mixture.localModel.order
  probability := mixture.probability
  fillers := mixture.localModel.fillers
  isUnknown := mixture.localModel.isUnknown

end Mixture

end NaturalNames
