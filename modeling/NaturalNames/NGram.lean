import NaturalNames.Error
import NaturalNames.Ordered.Map
import NaturalNames.Text.Substring

/-!
# `NaturalNames.NGram`: runs of tokens

An n-gram is a run of at least one token. One token of it may be open: it is the wildcard, or
holds it (`var%%WC%%`), and any name can be put there.

* `substitute` puts a name in.
* `fill?` finds the name that a token has where another token has the wildcard.
-/

set_option autoImplicit false

namespace NaturalNames

/-- Stands for the name that is looked for. -/
def wildcard : String := "%WC%"

/-- Stands for every token that a model does not know. -/
def unknownSymbol : String := "UNK_SYMBOL"

/-- A run of tokens. -/
structure NGram where
  tokens : List String
  nonempty : tokens ≠ []
deriving DecidableEq

namespace NGram

/-- The n-gram of a list of tokens, if it holds any. -/
def ofList? (tokens : List String) : Option NGram :=
  if h : tokens ≠ [] then some ⟨tokens, h⟩ else none

/-- The n-gram of one token. -/
def single (token : String) : NGram := ⟨[token], by simp⟩

/-- The number of tokens. -/
def length (ngram : NGram) : Nat := ngram.tokens.length

/-- N-grams are ordered like the lists of their tokens. -/
instance : Ord NGram := ⟨compareOn tokens⟩

instance : Std.TransOrd NGram := inferInstanceAs (Std.TransCmp (compareOn tokens))

/-- Whether a token is open. -/
def isOpen (token : String) : Bool := Text.occurs wildcard token

/-- The position of the first open token. -/
def wildcardPosition? (ngram : NGram) : Option Nat := ngram.tokens.findIdx? isOpen

/-- A token with `name` in place of the wildcard. What wraps the wildcard stays. -/
def fillToken (name token : String) : String := Text.replace wildcard name token

/-- The n-gram with `name` in every open token. -/
def substitute (ngram : NGram) (name : String) : Except Error NGram :=
  if ngram.tokens.any isOpen then
    .ok ⟨ngram.tokens.map fun token => if isOpen token then fillToken name token else token,
      by simp [ngram.nonempty]⟩
  else .error (.missingWildcard ngram.tokens)

/-- The last `n` tokens, but at least one. -/
def suffix (ngram : NGram) (n : Nat) : NGram where
  tokens := ngram.tokens.drop (ngram.tokens.length - max 1 n)
  nonempty := by
    have := List.length_pos_iff.2 ngram.nonempty
    intro h
    have := congrArg List.length h
    simp only [List.length_drop, List.length_nil] at this
    omega

/-- The tokens in brackets. -/
def toText (ngram : NGram) : String := "[" ++ " ".intercalate ngram.tokens ++ "]"

/-- The name that `token` has where `template` has the wildcard: what is left of it between the
parts of the template before and behind the first wildcard. No name is empty. -/
def fill? (template token : String) : Option String :=
  (Text.cutFirst wildcard template).bind fun (before, behind) =>
    (Text.between before behind token).filter (· ≠ "")

end NGram

/-- The n-grams around a name, each with the number of times it was met. -/
abbrev ContextSet := Tally NGram

end NaturalNames
