import NaturalNames.Backoff.Mixture
import NaturalNames.Renamer

/-!
# `NaturalNames.Strategy`: kinds of renamers

A strategy says which of the things that may have been trained a renamer uses: one model or a
mixture of two, and which priors.
-/

set_option autoImplicit false

namespace NaturalNames

/-- What a renamer goes by. -/
inductive Strategy where
  /-- The model alone. -/
  | base
  /-- The model and the syntactic role. -/
  | grammar
  /-- The model and the type. -/
  | types
  /-- The model and any choice of the priors. -/
  | allPriors (useGrammar useTypes : Bool)
  /-- A mixture of two models. -/
  | interpolated (weight : Float)
  /-- The model alone, to rank the tokens at one position. -/
  | formatting

/-- What strategies choose from. -/
structure Resources where
  model : BackoffModel
  globalModel : Option BackoffModel := none
  grammarPrior : Option GrammarPrior := none
  typePrior : Option TypePrior := none
  tokenizer : Tokenizer

namespace Strategy

/-- The price of an unseen name where one prior decides. -/
def singlePenalty : Float := 100

/-- The price of an unseen name where several things decide. -/
def combinedPenalty : Float := 6

/-- The penalty that a strategy has if none is given. -/
def defaultPenalty : Strategy → Float
  | .grammar => singlePenalty
  | .types => singlePenalty
  | _ => combinedPenalty

/-- Reads the name of a strategy, in letters of either case. The name says nothing of details,
so all priors are used and the weight is the usual one. -/
def ofText (text : String) : Except Error Strategy :=
  let word := text.toLower
  if word = "base" then .ok .base
  else if word = "grammar" then .ok .grammar
  else if word = "types" then .ok .types
  else if word = "all-priors" then .ok (.allPriors true true)
  else if word = "interpolated" then .ok (.interpolated Mixture.defaultWeight)
  else if word = "formatting" then .ok .formatting
  else .error (.config (.unknownStrategy word))

/-- The name of a strategy in configurations. -/
def toText : Strategy → String
  | .base => "base"
  | .grammar => "grammar"
  | .types => "types"
  | .allPriors _ _ => "all-priors"
  | .interpolated _ => "interpolated"
  | .formatting => "formatting"

variable {α : Type} [Arithmetic α]

/-- The model of a strategy. -/
def modelOf (resources : Resources) : Strategy → Except Error (LanguageModel α)
  | .interpolated weight =>
    match resources.globalModel with
    | none => .error (.config .noGlobalModel)
    | some globalModel =>
      (Mixture.ofModels globalModel resources.model weight).map Mixture.languageModel
  | _ => .ok resources.model.languageModel

/-- The grammar prior, which a strategy cannot do without. -/
def requireGrammar (resources : Resources) : Except Error (NamePrior α) :=
  match resources.grammarPrior with
  | some prior => .ok prior.namePrior
  | none => .error (.config .noGrammarPrior)

/-- The type prior, which a strategy cannot do without. -/
def requireTypes (resources : Resources) : Except Error (NamePrior α) :=
  match resources.typePrior with
  | some prior => .ok prior.namePrior
  | none => .error (.config .noTypePrior)

/-- The priors of a strategy, in the order in which their prices are added. -/
def priorsOf (resources : Resources) : Strategy → Except Error (List (NamePrior α))
  | .grammar => (requireGrammar resources).map fun prior => [prior]
  | .types => (requireTypes resources).map fun prior => [prior]
  | .allPriors useGrammar useTypes => do
    let types ← if useTypes then (requireTypes resources).map fun prior => [prior] else .ok []
    let grammar ←
      if useGrammar then (requireGrammar resources).map fun prior => [prior] else .ok []
    return types ++ grammar
  | _ => .ok []

/-- The mode in which a strategy scores. -/
def modeOf : Strategy → ScoringMode
  | .formatting => .formatting
  | _ => .crossEntropy

/-- The renamer of a strategy. The model is chosen first, then the configuration is checked, then
the priors are chosen. -/
def build (strategy : Strategy) (resources : Resources) (config : RenamerConfig) :
    Except Error (Renamer α) := do
  let model ← strategy.modelOf resources
  let renamer ← Renamer.ofModel model resources.tokenizer config
  let priors ← strategy.priorsOf resources
  return { renamer with priors := priors, mode := strategy.modeOf }

/-- The renamer of a strategy with the settings that suit it. -/
def buildDefault (strategy : Strategy) (resources : Resources) : Except Error (Renamer α) :=
  strategy.build resources { priorPenalty := strategy.defaultPenalty }

end Strategy

end NaturalNames
