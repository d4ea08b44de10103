import NaturalNames.NGram

/-!
# `NaturalNames.Vocabulary`: the tokens a model knows

Models count ids, not texts. A vocabulary gives the tokens that were seen often enough the ids
1, 2, … in ascending order; id 0 is that of every other token. `ids` and `tokens` say the same
twice, once for each direction, in every vocabulary that is built here. A vocabulary read from a
file is only known to have the form, so look-ups take each side as it is.
-/

set_option autoImplicit false

namespace NaturalNames

/-- The number of a token in a vocabulary. -/
abbrev TokenId := Nat

/-- The id of every token that is not known. -/
def unknownId : TokenId := 0

/-- Tokens and their ids. -/
structure Vocabulary where
  ids : SortedMap String TokenId
  /-- The token of each id. -/
  tokens : List String
deriving DecidableEq

namespace Vocabulary

/-- The vocabulary with the given tokens behind the symbol for unknown ones. -/
def ofTokens (known : List String) : Vocabulary where
  ids := .ofList (unknownSymbol :: known).zipIdx
  tokens := unknownSymbol :: known

/-- The vocabulary that knows no token. -/
def unknownOnly : Vocabulary := ofTokens []

/-- The tokens counted more than `cutoff` times. -/
def build (counts : Tally String) (cutoff : Nat) : Vocabulary :=
  ofTokens (counts.filter fun token n => cutoff < n && token ≠ unknownSymbol).keys

/-- The id of a token. -/
def idOf (vocabulary : Vocabulary) (token : String) : TokenId :=
  (vocabulary.ids.get? token).getD unknownId

/-- The token of an id. -/
def token? (vocabulary : Vocabulary) (id : TokenId) : Option String :=
  vocabulary.tokens[id]?

/-- Whether a token has the id of the unknown symbol. -/
def isUnknown (vocabulary : Vocabulary) (token : String) : Bool :=
  vocabulary.idOf token = unknownId

/-- The number of tokens, with the symbol for unknown ones. -/
def size (vocabulary : Vocabulary) : Nat := vocabulary.tokens.length

end Vocabulary

end NaturalNames
