import NaturalNames.Renaming

/-!
# `NaturalNames.Suggestion`: what is said about a name, and about a snippet

A suggestion holds the ranking for one occurrence and the gap between leaving the name alone and
the best renaming. A report holds the suggestions for a snippet.

* `keepProbability` reads scores as bits: the share of the renamings that leave the name alone.
* `logKeepProbability` is the logarithm of the probability that no name of a snippet changes.
-/

set_option autoImplicit false

namespace NaturalNames

/-- The ranking for an occurrence. -/
structure Suggestion (α : Type) [Arithmetic α] where
  identifier : String
  scope : Scope
  renamings : Ranking α
  /-- The score of the current name less that of the best renaming. -/
  gap : α

namespace Suggestion

variable {α : Type} [Arithmetic α]

/-- The widest gap first, then by identifier and scope. -/
def order : Suggestion α → Suggestion α → Ordering :=
  compareLex (fun a b => Arithmetic.order b.gap a.gap) <|
    compareLex (compareOn identifier) (compareOn scope)

/-- Sorts suggestions. Those equal in gap, identifier and scope stay in their order. -/
def sort (suggestions : List (Suggestion α)) : List (Suggestion α) :=
  suggestions.mergeSort fun a b => (order a b).isLE

/-- The most natural renaming. -/
def top? (s : Suggestion α) : Option (Renaming α) := s.renamings.first?

/-- The share of the renamings that leave the name alone, when each has a weight that depends on
its score. It is zero if there is no weight at all. -/
def keepShare {β : Type} [Arithmetic β] (weight : α → β) (s : Suggestion α) : β :=
  let weights := s.renamings.toList.map fun r => weight r.score
  let total := Arithmetic.sum weights
  if total ≤ Arithmetic.ofNat 0 then Arithmetic.ofNat 0
  else
    let kept := s.renamings.toList.filter fun r => r.name = s.identifier || r.isUnknown
    Arithmetic.sum (kept.map fun r => weight r.score / total)

/-- The probability that the name stays: a renaming is half as likely for each bit of score. -/
def keepProbability (s : Suggestion α) : α :=
  s.keepShare fun score => Arithmetic.exp2 (-score)

/-- The identifier and its gap to three places. -/
def toText [FloatValued α] (s : Suggestion α) : String :=
  s.identifier ++ "(" ++ Number.fixed 3 (FloatValued.toFloat s.gap) ++ ")"

end Suggestion

/-- The suggestions for a snippet. -/
structure Report (α : Type) [Arithmetic α] where
  suggestions : List (Suggestion α)
  /-- The sum of the gaps. -/
  score : α

namespace Report

variable {α : Type} [Arithmetic α]

/-- Whether nothing is suggested. -/
def isEmpty (report : Report α) : Bool := report.suggestions.isEmpty

/-- The logarithm of the probability that all names stay, if they do so independently. -/
def logKeepProbability (report : Report α) : α :=
  Arithmetic.sum (report.suggestions.map fun s => Arithmetic.log2 s.keepProbability)

/-- The suggestions and the score to three places. -/
def toText [FloatValued α] (report : Report α) : String :=
  "[" ++ ", ".intercalate (report.suggestions.map Suggestion.toText) ++ "] score:" ++
    Number.fixed 3 (FloatValued.toFloat report.score)

end Report

end NaturalNames
