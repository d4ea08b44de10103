import NaturalNames.NGram

/-!
# `NaturalNames.LanguageModel`: what a renamer asks of a model

Ranking needs four answers and nothing else from a model, so any four functions serve.
-/

set_option autoImplicit false

namespace NaturalNames

/-- A model of code, with probabilities in `α`. -/
structure LanguageModel (α : Type) where
  /-- The length of the longest n-grams the model knows of. -/
  order : Nat
  /-- The probability of the last token after the others. -/
  probability : NGram → α
  /-- The names seen where the contexts have the given wildcard, with their weights. -/
  fillers : ContextSet → String → Tally String
  /-- Whether the model has no opinion of its own about a token. -/
  isUnknown : String → Bool

end NaturalNames
