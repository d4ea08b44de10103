import NaturalNames.CountTrie
import NaturalNames.LanguageModel
import NaturalNames.Number.Arithmetic

/-!
# `NaturalNames.Backoff`: an n-gram model that backs off

The probability of a token after some others is the share of the times it followed them, if it
ever did. If it did not, the first of the others is dropped, at the price of a fixed factor. A
single token has the share of its count, where every token of the vocabulary counts once more
than it was seen: so nothing is impossible.

* `estimate` says how often the model backs off for a sequence of ids, and which two counts it
  divides then. No rounding happens here.
* `probability` is the number that comes of it.
* `fillers` finds the names that stood in the open place of a context.
-/

set_option autoImplicit false

namespace NaturalNames

/-- A trained model. `==` compares factors as floats, so a model whose factor is NaN differs even
from itself. -/
structure BackoffModel where
  /-- The length of the longest n-grams that were counted. -/
  order : Nat
  /-- The price of dropping a token. -/
  factor : Float
  vocabulary : Vocabulary
  counts : CountTrie
deriving BEq, DecidableEq

/-- A probability before any rounding: the quotient of two counts, times the back-off factor for
each token dropped. -/
structure Estimate where
  backoffs : Nat
  numerator : Nat
  denominator : Nat
deriving DecidableEq, Repr

namespace Estimate

variable {α : Type} [Arithmetic α]

/-- `x`, multiplied by `factor` a number of times. -/
def discount (factor x : α) : Nat → α
  | 0 => x
  | n + 1 => factor * discount factor x n

/-- The number that an estimate stands for. -/
def value (factor : α) (e : Estimate) : α :=
  discount factor (Arithmetic.ofNat e.numerator / Arithmetic.ofNat e.denominator) e.backoffs

end Estimate

namespace BackoffModel

/-- The ids of the tokens of an n-gram. -/
def idsOf (model : BackoffModel) (tokens : List String) : List TokenId :=
  tokens.map model.vocabulary.idOf

/-- How often the n-gram was counted in training. -/
def count (model : BackoffModel) (ngram : NGram) : Nat :=
  model.counts.count (model.idsOf ngram.tokens)

/-! ### Probabilities -/

/-- The share of a single id. Both numbers can come round in words of 64 bits if the counts of a
model that was read are great enough (`BackoffModel.probabilityWords`). -/
def unigram (model : BackoffModel) (id : TokenId) : Estimate where
  backoffs := 0
  numerator := model.counts.count [id] + 1
  denominator := model.counts.total + model.vocabulary.size

/-- The estimate of the last id after the others. -/
def estimate (model : BackoffModel) : List TokenId → Estimate
  | [] => ⟨0, 1, 1⟩
  | [id] => model.unigram id
  | id :: next :: rest =>
    let ids := id :: next :: rest
    let n := model.counts.count ids
    if 0 < n then ⟨0, n, model.counts.count ids.dropLast⟩
    else
      let shorter := model.estimate (next :: rest)
      { shorter with backoffs := shorter.backoffs + 1 }

/-- The estimate of an n-gram. Tokens in front of the last `order` do not matter. -/
def estimateOf (model : BackoffModel) (ngram : NGram) : Estimate :=
  model.estimate (model.idsOf (ngram.suffix model.order).tokens)

/-- The probability of the last token of an n-gram after the others. -/
def probability {α : Type} [Arithmetic α] (model : BackoffModel) (ngram : NGram) : α :=
  (model.estimateOf ngram).value (Arithmetic.ofFloat model.factor)

/-! ### Fillers -/

/-- The tokens in front of a position that the model looks at. A model of order zero, which only a
file can hold, looks at none. -/
def history (model : BackoffModel) (tokens : List String) (position : Nat) : List String :=
  (tokens.take position).drop (position - (model.order - 1))

/-- The name in the open place that makes `template` a token of this id. -/
def nameOf? (model : BackoffModel) (template : String) (id : TokenId) : Option String :=
  if id = unknownId then none
  else (model.vocabulary.token? id).bind (NGram.fill? template)

/-- The names seen where one n-gram is open, each with `weight` times its count, which is a number
of any size (`BackoffModel.fillersWords` has words). An n-gram that is open at its first token, or
nowhere, has none. -/
def fillersIn (model : BackoffModel) (mark : String) (ngram : NGram) (weight : Nat) :
    List (String × Nat) :=
  match ngram.tokens.findIdx? (Text.occurs mark) with
  | none => []
  | some position =>
    if position = 0 then []
    else
      let template := (ngram.tokens[position]?).getD ""
      let seen := model.counts.continuations (model.idsOf (model.history ngram.tokens position))
      seen.filterMap fun (id, n) => (model.nameOf? template id).map fun name => (name, n * weight)

/-- The names seen where the contexts are open. `mark` tells which tokens are open; names are cut
out at the wildcard. -/
def fillers (model : BackoffModel) (contexts : ContextSet) (mark : String) : Tally String :=
  .ofCounts (contexts.entries.flatMap fun (ngram, weight) => model.fillersIn mark ngram weight)

/-- Whether the model does not know a token. -/
def isUnknown (model : BackoffModel) (token : String) : Bool :=
  model.vocabulary.isUnknown token

/-- The model as a renamer sees it. -/
def languageModel {α : Type} [Arithmetic α] (model : BackoffModel) : LanguageModel α where
  order := model.order
  probability := model.probability
  fillers := model.fillers
  isUnknown := model.isUnknown

end BackoffModel

end NaturalNames
