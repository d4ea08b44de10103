import NaturalNames.Backoff
import NaturalNames.Corpus
import NaturalNames.Machine
import NaturalNames.Token

/-!
# `NaturalNames.Backoff.Training`: counting a corpus

Training goes over the corpus twice. The first pass cuts the units into tokens and counts them,
which gives the vocabulary; a unit that has no tokens is skipped and reported. The second pass
counts, from every position on, the window of the next `order` ids. Both passes work in chunks,
and what they count adds up to the same whatever the chunks.
-/

set_option autoImplicit false

namespace NaturalNames

/-- What a model is trained with. -/
structure ModelConfig where
  /-- The length of the longest n-grams. -/
  order : Nat := 5
  /-- Tokens seen at most this many times are not known to the model. -/
  vocabularyCutoff : Nat := 1
  /-- N-grams of two tokens or more seen at most this many times are forgotten. -/
  ngramCutoff : Nat := 0
  /-- The price of dropping a token. -/
  backoffFactor : Float := 0.4
  /-- Count only windows that hold an identifier. -/
  identifierNeighborsOnly : Bool := false
  /-- Chunks of work for each processor. -/
  chunkFactor : Nat := 8

/-- Refuses a configuration, naming the first setting that is out of range. -/
def ModelConfig.validate (config : ModelConfig) : Except Error Unit :=
  if config.order = 0 then .error (.config .orderZero)
  else if ¬ (0 < config.backoffFactor ∧ config.backoffFactor < 1) then
    .error (.config (.backoffFactor config.backoffFactor))
  else if config.chunkFactor = 0 then .error (.config .chunkFactorZero)
  else .ok ()

/-- A model and the units that it was trained without. -/
structure TrainingOutcome where
  model : BackoffModel
  skipped : List SkippedUnit
deriving DecidableEq

namespace Training

/-- A token of the corpus: its text, and whether it is an identifier. -/
structure Word where
  text : String
  isIdentifier : Bool

/-- What the first pass finds in a chunk of units. -/
structure Chunk where
  units : List (List Word)
  counts : Tally String
  skipped : List SkippedUnit

/-- The words of a unit, or why it has none. -/
def wordsOf (tokenizer : Tokenizer) (unit : CorpusUnit) : Except SkippedUnit (List Word) :=
  match tokenizer.tokenize unit.source with
  | .ok tokens => .ok (tokens.map fun token => ⟨token.text, tokenizer.isIdentifier token⟩)
  | .error e => .error ⟨unit.name, e.message⟩

/-- Reads a chunk of units: their words, how often each stands there, and what had to be skipped. -/
def readChunk (tokenizer : Tokenizer) (units : List CorpusUnit) : Chunk :=
  let read := units.map (wordsOf tokenizer)
  let found := read.filterMap fun r => r.toOption
  { units := found
    counts := .ofKeys (found.flatten.map Word.text)
    skipped := read.filterMap fun
      | .error skipped => some skipped
      | .ok _ => none }

/-- The window from each position on. Where it would end is not computed, so no order is too great
here; `EndsFit` says when that position is a word of 64 bits. -/
def windows {α : Type} (order : Nat) : List α → List (List α)
  | [] => []
  | x :: rest => (x :: rest).take order :: windows order rest

/-- The windows of a unit that count. -/
def countedWindows (config : ModelConfig) (words : List Word) : List (List Word) :=
  (windows config.order words).filter fun window =>
    !config.identifierNeighborsOnly || window.any Word.isIdentifier

/-- What the second pass counts in a chunk of units. -/
def countChunk (config : ModelConfig) (vocabulary : Vocabulary) (units : List (List Word)) :
    CountTrie :=
  (units.flatMap (countedWindows config)).foldl
    (fun trie window => trie.add (window.map fun word => vocabulary.idOf word.text)) .empty

end Training

namespace BackoffModel

open Training

/-- The model that has seen nothing: every token is unknown to it. -/
def untrained (config : ModelConfig) : Except Error BackoffModel :=
  config.validate.map fun _ => {
    order := config.order
    factor := config.backoffFactor
    vocabulary := .unknownOnly
    counts := .empty }

/-- The model of the units that have been read. -/
def ofChunks (machine : Machine) (config : ModelConfig) (chunks : List Chunk) : BackoffModel :=
  let counts := chunks.foldl (fun sum chunk => Tally.merge sum chunk.counts) .empty
  let vocabulary := Vocabulary.build counts config.vocabularyCutoff
  let parts := machine.mapChunks config.chunkFactor (countChunk config vocabulary)
    (chunks.flatMap Chunk.units)
  { order := config.order
    factor := config.backoffFactor
    vocabulary := vocabulary
    counts := (parts.foldl CountTrie.merge .empty).cutoffRare config.ngramCutoff }

/-- Trains a model. If no unit has tokens the model knows nothing. -/
def train (machine : Machine) (tokenizer : Tokenizer) (config : ModelConfig)
    (units : List CorpusUnit) : Except Error TrainingOutcome := do
  config.validate
  if units.isEmpty then throw .emptyCorpus
  let chunks := machine.mapChunks config.chunkFactor (readChunk tokenizer) units
  return {
    model := ofChunks machine config chunks
    skipped := chunks.flatMap Chunk.skipped }

end BackoffModel

end NaturalNames
