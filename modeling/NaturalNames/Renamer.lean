import NaturalNames.LanguageModel
import NaturalNames.NGram.Window
import NaturalNames.Prior
import NaturalNames.Renaming

/-!
# `NaturalNames.Renamer`: ranking the names of an identifier

Which name is the most natural for an identifier? The renamer looks at the contexts of the
identifier with its name left open, collects the names that the model saw in such contexts, and
scores each by how likely the model finds the contexts with that name put in. Priors add what
the scope alone says about the name.

* `candidatePool` is the list of names to score: the most frequent fillers, the current name, and
  the symbol for unknown names.
* `scoreCandidates` scores a pool. A name that the model gives no usable probability is left out.
* `rank`, `rankAt` and `rankTokenAt` do both, for a name in a scope, for the name at given
  positions and for whatever token stands at a position.
-/

set_option autoImplicit false

namespace NaturalNames

/-- How candidates are scored. -/
structure RenamerConfig where
  /-- The most fillers that a pool may hold. -/
  maxCandidates : Nat := 1000
  /-- The price in bits of a known name that a prior has never seen. -/
  priorPenalty : Float := 6

/-- Refuses a configuration, naming the first setting that is out of range. -/
def RenamerConfig.validate (config : RenamerConfig) : Except Error Unit :=
  if config.maxCandidates = 0 then .error (.config .maxCandidatesZero)
  else if Number.isFinite config.priorPenalty = false ∨ config.priorPenalty < 0 then
    .error (.config (.priorPenalty config.priorPenalty))
  else .ok ()

/-- What a score is. -/
inductive ScoringMode where
  /-- The bits of all contexts and priors, per context. -/
  | crossEntropy
  /-- The bits of all contexts. Serves to rank the tokens at one position, blanks for instance. -/
  | formatting
deriving DecidableEq, Repr

/-- The name of a mode in configurations. -/
def ScoringMode.toText : ScoringMode → String
  | .crossEntropy => "cross-entropy"
  | .formatting => "formatting"

/-- Ranks names with a model and priors. -/
structure Renamer (α : Type) where
  model : LanguageModel α
  tokenizer : Tokenizer
  priors : List (NamePrior α)
  config : RenamerConfig
  mode : ScoringMode

namespace Renamer

variable {α : Type}

/-- A renamer that goes by the model alone. -/
def ofModel (model : LanguageModel α) (tokenizer : Tokenizer) (config : RenamerConfig) :
    Except Error (Renamer α) :=
  config.validate.map fun _ => {
    model := model
    tokenizer := tokenizer
    priors := []
    config := config
    mode := .crossEntropy }

/-- Adds a prior behind the others. -/
def withPrior (renamer : Renamer α) (prior : NamePrior α) : Renamer α :=
  { renamer with priors := renamer.priors ++ [prior] }

/-- The renamer in another mode. -/
def withMode (renamer : Renamer α) (mode : ScoringMode) : Renamer α :=
  { renamer with mode := mode }

/-! ### Contexts -/

/-- The contexts of a name in a snippet. -/
def snippetContexts (renamer : Renamer α) (snippet name : String) : Except Error ContextSet :=
  (renamer.tokenizer.texts snippet).map fun tokens =>
    nameContexts renamer.model.order name tokens

/-- The tokens with the wildcard at the given positions. -/
def maskPositions (positions : SortedSet Nat) (tokens : List String) : List String :=
  positions.toList.foldl (fun masked position => masked.set position wildcard) tokens

/-- What is scored where there is no context: the name by itself. -/
def loneContext : ContextSet := .ofKeys [NGram.single wildcard]

/-! ### Candidates -/

/-- Fillers by count, the greatest first, and by name where counts are equal. -/
def moreFrequent (a b : String × Nat) : Bool :=
  match compare b.2 a.2 with
  | .lt => true
  | .gt => false
  | .eq => (compare a.1 b.1).isLE

/-- The most frequent fillers of the contexts, without the current name and the symbol for
unknown names. -/
def topFillers (renamer : Renamer α) (contexts : ContextSet) (current : String) : List String :=
  let others := (renamer.model.fillers contexts wildcard).filter fun name _ =>
    name ≠ current && name ≠ unknownSymbol
  ((others.entries.mergeSort moreFrequent).take renamer.config.maxCandidates).map Prod.fst

/-- The names to score: the most frequent fillers and the two names that are always scored. -/
def candidatePool (renamer : Renamer α) (contexts : ContextSet) (current : String) :
    SortedSet String :=
  ((SortedSet.ofList (renamer.topFillers contexts current)).insert current).insert unknownSymbol

/-! ### Scores -/

variable [Arithmetic α]

/-- Why a name cannot be scored. -/
inductive Unscorable (α : Type) where
  /-- A context has no place for the name. -/
  | closed (ngram : NGram)
  /-- The model gives a context a probability that has no logarithm. -/
  | improbable (ngram : NGram) (probability : α)

/-- The logarithm of the probability of one context with a name put in. -/
def logProbability (renamer : Renamer α) (name : String) (ngram : NGram) :
    Except (Unscorable α) α :=
  match ngram.substitute name with
  | .error _ => .error (.closed ngram)
  | .ok filled =>
    let p := renamer.model.probability filled
    if Arithmetic.isFinite p = false ∨ p ≤ Arithmetic.ofNat 0 then .error (.improbable filled p)
    else .ok (Arithmetic.log2 p)

/-- The logarithm of the probability of all contexts with a name put in, each as often as it was
met. -/
def logLikelihood (renamer : Renamer α) (contexts : ContextSet) (name : String) :
    Except (Unscorable α) α :=
  contexts.entries.foldlM (fun sum (ngram, weight) => do
    let bits ← renamer.logProbability name ngram
    return sum + bits * Arithmetic.ofNat weight) (Arithmetic.ofNat 0)

/-- The price of a name under one prior. A name the prior has never seen has a fixed price, but
a name that the model does not know either is free. -/
def priceUnder (renamer : Renamer α) (name : String) (scope : Scope) (prior : NamePrior α) : α :=
  let p := prior.probability name scope
  if Arithmetic.ofNat 0 < p then -Arithmetic.log2 p
  else if renamer.model.isUnknown name then Arithmetic.ofNat 0
  else Arithmetic.ofFloat renamer.config.priorPenalty

/-- The price of a name under all priors. -/
def priorCost (renamer : Renamer α) (name : String) (scope : Scope) : α :=
  Arithmetic.sum (renamer.priors.map (renamer.priceUnder name scope))

/-- A name with its score on the contexts. The weight of the contexts is divided by the order of the
model, which is to be positive. -/
def scoreCandidate (renamer : Renamer α) (contexts : ContextSet) (scope : Option Scope)
    (name : String) : Except (Unscorable α) (Renaming α) :=
  (renamer.logLikelihood contexts name).map fun bits =>
    match renamer.mode with
    | .crossEntropy =>
      let prior := match scope with
        | some scope => renamer.priorCost name scope
        | none => Arithmetic.ofNat 0
      let total := Tally.total contexts
      { name := name
        score := (prior - bits) / Arithmetic.ofNat total
        contexts := max 1 (total / renamer.model.order)
        scope := scope }
    | .formatting => { name := name, score := -bits, contexts := 1, scope := scope }

/-- The contexts that are scored: those given, or the name by itself if there are none. -/
def scoredContexts (contexts : ContextSet) : ContextSet :=
  if contexts.isEmpty then loneContext else contexts

/-- Ranks the candidates that can be scored. -/
def scoreCandidates (renamer : Renamer α) (contexts : ContextSet) (candidates : SortedSet String)
    (scope : Option Scope) : Ranking α :=
  .ofList <| candidates.toList.filterMap fun name =>
    (renamer.scoreCandidate (scoredContexts contexts) scope name).toOption

/-! ### Rankings -/

/-- Ranks the candidates for a name on its contexts. -/
def rankOn (renamer : Renamer α) (contexts : ContextSet) (current : String)
    (scope : Option Scope) : Ranking α :=
  renamer.scoreCandidates contexts (renamer.candidatePool contexts current) scope

/-- Ranks the names for an identifier in a scope. A snippet without tokens gives no name. -/
def rank (renamer : Renamer α) (scope : Scope) (identifier : String) : Ranking α :=
  match renamer.snippetContexts scope.snippet identifier with
  | .ok contexts => renamer.rankOn contexts identifier (some scope)
  | .error _ => .empty

/-- Ranks the names for the identifier that stands at the given positions. -/
def rankAt (renamer : Renamer α) (tokens : List String) (positions : SortedSet Nat)
    (current : String) : Ranking α :=
  renamer.rankOn
    (contextsAt renamer.model.order (maskPositions positions tokens) positions) current none

/-- Ranks the tokens for one position. -/
def rankTokenAt (renamer : Renamer α) (tokens : List String) (index : Nat) : Ranking α :=
  match tokens[index]? with
  | some current =>
    renamer.rankOn (formattingContexts renamer.model.order index tokens) current none
  | none => .empty

end Renamer

end NaturalNames
