/-!
# `NaturalNames.Corpus`: the code that models are trained on
-/

set_option autoImplicit false

namespace NaturalNames

/-- A piece of a corpus, usually the content of one file. -/
structure CorpusUnit where
  name : String
  source : String
deriving DecidableEq, Repr

/-- A unit that was left out of training, and why. -/
structure SkippedUnit where
  name : String
  reason : String
deriving DecidableEq, Repr

end NaturalNames
