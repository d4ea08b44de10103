import NaturalNames.Number.Decimal

/-!
# `NaturalNames.Error`: what can go wrong

An error names its cause. The wording is in `Error.message` and the functions before it, so that
no other module builds a message.
-/

set_option autoImplicit false

namespace NaturalNames

/-- A setting that is out of range, or a resource that the settings ask for and nobody gave. -/
inductive ConfigFault where
  | orderZero
  | backoffFactor (value : Float)
  | chunkFactorZero
  | maxCandidatesZero
  | priorPenalty (value : Float)
  /-- The threshold of this name is infinite or no number. -/
  | threshold (name : String)
  | maxRankZero
  | unknownKind (text : String)
  | unknownStrategy (text : String)
  | mixtureWeight (value : Float)
  | noGlobalModel
  | noGrammarPrior
  | noTypePrior
deriving DecidableEq

/-- What is wrong with the configuration, as a text. -/
def ConfigFault.message : ConfigFault → String
  | .orderZero => "n-gram order must be >= 1"
  | .backoffFactor value => "backoff factor must be in (0, 1), got " ++ Number.shortest value
  | .chunkFactorZero => "chunk factor must be >= 1"
  | .maxCandidatesZero => "max_candidates must be >= 1"
  | .priorPenalty value =>
    "prior penalty must be finite and >= 0, got " ++ Number.shortest value
  | .threshold name => name ++ " threshold must be finite"
  | .maxRankZero => "max_rank must be >= 1"
  | .unknownKind text => "unknown scope kind '" ++ text ++ "'"
  | .unknownStrategy text => "unknown scoring strategy '" ++ text ++ "'"
  | .mixtureWeight value => "interpolation weight must be in [0, 1], got " ++ Number.shortest value
  | .noGlobalModel => "interpolated strategy needs a global model"
  | .noGrammarPrior => "strategy needs a grammar prior"
  | .noTypePrior => "strategy needs a type prior"

/-- Why a text has no tokens. -/
inductive LexFault where
  /-- A block comment does not end. -/
  | openComment
  /-- A literal does not end. -/
  | openLiteral (quote : Char)
  /-- A reason of a tokenizer other than the one of this library. -/
  | other (reason : String)
deriving DecidableEq

/-- What is wrong with the code, as a text. -/
def LexFault.message : LexFault → String
  | .openComment => "unterminated block comment"
  | .openLiteral quote => "unterminated literal starting with " ++ String.singleton quote
  | .other reason => reason

/-- The errors of the library. -/
inductive Error where
  | config (fault : ConfigFault)
  | emptyCorpus
  | tokenize (fault : LexFault)
  /-- A name was to be put into an n-gram that has no place for it. -/
  | missingWildcard (tokens : List String)
  | scopeExtraction (reason : String)
  /-- A file or directory could not be read or written. -/
  | io
  /-- Bytes that are no model. -/
  | malformedModel
deriving DecidableEq

/-- The text that a person is shown. -/
def Error.message : Error → String
  | .config fault => "Configuration error: " ++ fault.message
  | .emptyCorpus => "Training corpus is empty"
  | .tokenize fault => "Tokenization error: " ++ fault.message
  | .missingWildcard tokens =>
    "N-gram has no wildcard token: [" ++ " ".intercalate tokens ++ "]"
  | .scopeExtraction reason => "Scope extraction error: " ++ reason
  | .io => "IO error"
  | .malformedModel => "Serialization error"

end NaturalNames
