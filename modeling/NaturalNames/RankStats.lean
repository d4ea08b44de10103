import NaturalNames.Suggestion

/-!
# `NaturalNames.RankStats`: at which rank things are found

A tally of ranks, for measuring how well suggestions find a name that is known to be bad: how
often it came within the first 1, 2, …, 20, and the mean of one over its rank. What is counted is a
number of any size; `NaturalNames.Proofs.RankStats.Words` says when words of 64 bits hold it.
-/

set_option autoImplicit false

namespace NaturalNames

/-- How many ranks are told apart. -/
def trackedRanks : Nat := 20

/-- What was recorded so far. -/
structure RankStats (α : Type) where
  /-- At index `k`, how many ranks were at most `k + 1`. -/
  hits : Vector Nat trackedRanks
  total : Nat
  /-- The sum of one over each rank. -/
  reciprocals : α
deriving BEq

namespace RankStats

variable {α : Type} [Arithmetic α]

/-- Nothing recorded. -/
def empty : RankStats α where
  hits := Vector.replicate trackedRanks 0
  total := 0
  reciprocals := Arithmetic.ofNat 0

/-- Records a rank, counted from one. No rank, or a rank of zero, counts as not found. -/
def record (stats : RankStats α) (rank : Option Nat) : RankStats α :=
  match rank with
  | some (n + 1) => {
      hits := stats.hits.mapIdx fun k hit => if n ≤ k then hit + 1 else hit
      total := stats.total + 1
      reciprocals := stats.reciprocals + Arithmetic.ofNat 1 / Arithmetic.ofNat (n + 1) }
  | _ => { stats with total := stats.total + 1 }

/-- Records the place of `target` in a list of identifiers. A list of one says nothing about
places and is not recorded. -/
def recordIdentifiers (stats : RankStats α) (identifiers : List String) (target : String) :
    RankStats α :=
  if identifiers.length = 1 then stats
  else stats.record ((identifiers.findIdx? (· = target)).map (· + 1))

/-- Records the place of `target` among suggestions. The statistics need not be kept in the numbers
that the suggestions are scored in. -/
def recordSuggestions {β : Type} [Arithmetic β] (stats : RankStats α)
    (suggestions : List (Suggestion β)) (target : String) : RankStats α :=
  stats.recordIdentifiers (suggestions.map Suggestion.identifier) target

/-- What was recorded on either side. -/
def merge (a b : RankStats α) : RankStats α where
  hits := a.hits.zipWith (· + ·) b.hits
  total := a.total + b.total
  reciprocals := a.reciprocals + b.reciprocals

/-- The share of the ranks that were at most `k`, for `k` from one to the last tracked. -/
def hitRate (stats : RankStats α) (k : Nat) : α :=
  if stats.total = 0 ∨ k = 0 then Arithmetic.ofNat 0
  else
    let hits := (stats.hits.toList[min k trackedRanks - 1]?).getD 0
    Arithmetic.ofNat hits / Arithmetic.ofNat stats.total

/-- The mean of one over the rank, with zero where nothing was found. -/
def meanReciprocalRank (stats : RankStats α) : α :=
  if stats.total = 0 then Arithmetic.ofNat 0
  else stats.reciprocals / Arithmetic.ofNat stats.total

/-- All hit rates and the mean, separated by commas. -/
def toText [FloatValued α] (stats : RankStats α) : String :=
  let rates := (List.range trackedRanks).map fun k => stats.hitRate (k + 1)
  ",".intercalate ((rates ++ [stats.meanReciprocalRank]).map fun rate =>
    Number.shortest (FloatValued.toFloat rate))

end RankStats

end NaturalNames
