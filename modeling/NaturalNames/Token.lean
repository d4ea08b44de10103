import NaturalNames.Error

/-!
# `NaturalNames.Token`: tokens and tokenizers

A model sees a program as a list of words, and has to know which of them are identifiers. How a
text is cut into words is up to a `Tokenizer`; `NaturalNames.Token.Lexer` holds one for languages
that look like C.
-/

set_option autoImplicit false

namespace NaturalNames

/-- What a token is in its language. -/
inductive TokenKind where
  | identifier
  | keyword
  | literal
  | operator
  | other
deriving DecidableEq, Repr

/-- A word of a program. To a model two tokens are the same word if their texts are equal. -/
structure Token where
  text : String
  kind : TokenKind
deriving DecidableEq, Repr

/-- A way to cut program text into tokens. -/
structure Tokenizer where
  tokenize : String → Except Error (List Token)
  isIdentifier : Token → Bool := fun token => token.kind = .identifier

/-- The tokens of a text without their kinds. -/
def Tokenizer.texts (tokenizer : Tokenizer) (text : String) : Except Error (List String) :=
  (tokenizer.tokenize text).map fun tokens => tokens.map Token.text

end NaturalNames
