import NaturalNames.Corpus
import NaturalNames.Machine
import NaturalNames.Prior.Distribution
import NaturalNames.Scope

/-!
# `NaturalNames.Prior`: which names fit a place

A prior says how likely a name is in a scope, without a look at the code around it. Two are
learnt from the occurrences of a corpus:

* `GrammarPrior` goes by the syntactic roles of the snippet and of what encloses it;
* `TypePrior` goes by the type of the identifier, and has no opinion where that is unknown.
-/

set_option autoImplicit false

namespace NaturalNames

/-- The probability of a name in a scope. -/
structure NamePrior (α : Type) where
  probability : String → Scope → α

/-- The occurrences in a list of units. A unit that the extractor fails on has none. -/
def occurrencesOf (extractor : ScopeExtractor) (units : List CorpusUnit) : List Occurrence :=
  units.flatMap fun unit => ((extractor.extract unit.source).toOption).getD []

/-- Names by syntactic role. -/
structure GrammarPrior where
  byCategory : Distribution
  byParentCategory : Distribution
deriving DecidableEq

namespace GrammarPrior

/-- The prior of no observation. -/
def empty : GrammarPrior := ⟨.empty, .empty⟩

/-- Counts an occurrence. -/
def observe (prior : GrammarPrior) (o : Occurrence) : GrammarPrior where
  byCategory := prior.byCategory.add o.name o.scope.category
  byParentCategory := prior.byParentCategory.add o.name o.scope.parentCategory

/-- Counts occurrences one by one. -/
def observeAll (prior : GrammarPrior) (occurrences : List Occurrence) : GrammarPrior :=
  occurrences.foldl observe prior

/-- The observations of both priors. -/
def merge (a b : GrammarPrior) : GrammarPrior where
  byCategory := a.byCategory.merge b.byCategory
  byParentCategory := a.byParentCategory.merge b.byParentCategory

/-- The prior of the occurrences in a corpus, counted in chunks. -/
def build (machine : Machine) (extractor : ScopeExtractor) (units : List CorpusUnit)
    (chunkFactor : Nat) : GrammarPrior :=
  (machine.mapChunks chunkFactor (fun chunk => empty.observeAll (occurrencesOf extractor chunk))
    units).foldl merge empty

/-- The share of the name in either role, multiplied. -/
def probability {α : Type} [Arithmetic α] (prior : GrammarPrior) (name : String) (scope : Scope) :
    α :=
  prior.byCategory.probability name scope.category *
    prior.byParentCategory.probability name scope.parentCategory

/-- The prior as a renamer sees it. -/
def namePrior {α : Type} [Arithmetic α] (prior : GrammarPrior) : NamePrior α :=
  ⟨prior.probability⟩

end GrammarPrior

/-- Names by type. -/
structure TypePrior where
  byType : Distribution
deriving DecidableEq

namespace TypePrior

/-- The prior of no observation. -/
def empty : TypePrior := ⟨.empty⟩

/-- Counts an occurrence, if its type is known. -/
def observe (prior : TypePrior) (o : Occurrence) : TypePrior :=
  match o.scope.inferredType with
  | some type => ⟨prior.byType.add o.name type⟩
  | none => prior

/-- Counts occurrences one by one. -/
def observeAll (prior : TypePrior) (occurrences : List Occurrence) : TypePrior :=
  occurrences.foldl observe prior

/-- The observations of both priors. -/
def merge (a b : TypePrior) : TypePrior := ⟨a.byType.merge b.byType⟩

/-- The prior of the occurrences in a corpus, counted in chunks. -/
def build (machine : Machine) (extractor : ScopeExtractor) (units : List CorpusUnit)
    (chunkFactor : Nat) : TypePrior :=
  (machine.mapChunks chunkFactor (fun chunk => empty.observeAll (occurrencesOf extractor chunk))
    units).foldl merge empty

/-- The share of the name among those of the type. Without a type every name is certain. -/
def probability {α : Type} [Arithmetic α] (prior : TypePrior) (name : String) (scope : Scope) : α :=
  match scope.inferredType with
  | some type => prior.byType.probability name type
  | none => Arithmetic.ofNat 1

/-- The name seen most often with a type. -/
def mostLikelyName? (prior : TypePrior) (type : String) : Option String :=
  prior.byType.mostLikely? type

/-- The prior as a renamer sees it. -/
def namePrior {α : Type} [Arithmetic α] (prior : TypePrior) : NamePrior α :=
  ⟨prior.probability⟩

end TypePrior

end NaturalNames
