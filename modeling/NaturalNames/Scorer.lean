import NaturalNames.Renamer
import NaturalNames.Suggestion
import NaturalNames.Threshold

/-!
# `NaturalNames.Scorer`: how natural the names of a snippet are

The scorer ranks every occurrence of a snippet and adds up the gaps of those that are worth a
report. Units are scored one by one and listed with the least natural first.

* `rankSuggestions` gives the full rankings, `scoreOccurrences` and `scoreUnit` a report.
* `rankUnits` scores a corpus; `mostUnnatural` takes the front of such a list.
-/

set_option autoImplicit false

namespace NaturalNames

/-- Scores snippets with a renamer. -/
structure Scorer (α : Type) where
  renamer : Renamer α
  extractor : ScopeExtractor
  thresholds : ThresholdConfig
  /-- Chunks of work for each processor. -/
  chunkFactor : Nat := 8

/-- A unit and what is reported on it. -/
structure RankedUnit (α : Type) [Arithmetic α] where
  name : String
  report : Report α

namespace Scorer

variable {α : Type}

/-- A scorer with valid thresholds. -/
def ofRenamer (renamer : Renamer α) (extractor : ScopeExtractor) (thresholds : ThresholdConfig) :
    Except Error (Scorer α) :=
  thresholds.validate.map fun _ => {
    renamer := renamer
    extractor := extractor
    thresholds := thresholds }

/-- Sets the number of chunks, which is at least one. -/
def withChunkFactor (scorer : Scorer α) (chunkFactor : Nat) : Scorer α :=
  { scorer with chunkFactor := max 1 chunkFactor }

variable [Arithmetic α]

/-- Ranks one occurrence. There is no suggestion where no name can be scored, and none where the
current name cannot. -/
def suggest (scorer : Scorer α) (o : Occurrence) : Option (Suggestion α) :=
  let renamings := scorer.renamer.rank o.scope o.name
  (Ranking.confidenceGap? renamings o.name scorer.thresholds.useUnknown).map fun gap => {
    identifier := o.name
    scope := o.scope
    renamings := renamings
    gap := gap }

/-- Ranks occurrences one after the other, the widest gap first. -/
def suggestInTurn (scorer : Scorer α) (occurrences : List Occurrence) : List (Suggestion α) :=
  Suggestion.sort (occurrences.filterMap scorer.suggest)

/-- Ranks occurrences in chunks, the widest gap first. -/
def rankSuggestions (scorer : Scorer α) (machine : Machine) (occurrences : List Occurrence) :
    List (Suggestion α) :=
  Suggestion.sort
    (machine.mapChunks scorer.chunkFactor (fun chunk => chunk.filterMap scorer.suggest)
      occurrences).flatten

/-! ### Reports -/

/-- A suggestion cut down to what is worth a report. Without the current name among the renamings
left, the gap goes up to the threshold. -/
def cutDown (scorer : Scorer α) (s : Suggestion α) : Suggestion α :=
  let threshold : α := Arithmetic.ofFloat (scorer.thresholds.thresholdFor s.scope.kind)
  let renamings := Ranking.applyThreshold s.renamings threshold scorer.thresholds.maxRank
  let top := (renamings.first?.map Renaming.score).getD threshold
  let gap := Ranking.confidenceGap? renamings s.identifier scorer.thresholds.useUnknown
  { s with renamings := renamings, gap := gap.getD (threshold - top) }

/-- Whether the gap of a suggestion is wide enough. -/
def isReported (scorer : Scorer α) (s : Suggestion α) : Bool :=
  decide (Arithmetic.ofFloat scorer.thresholds.reportingFloor < s.gap)

/-- The report on some suggestions, which are cut down first if `filter` says so. -/
def aggregate (scorer : Scorer α) (filter : Bool) (suggestions : List (Suggestion α)) :
    Report α :=
  let cut := if filter then suggestions.map scorer.cutDown else suggestions
  let reported := cut.filter scorer.isReported
  { suggestions := Suggestion.sort reported
    score := reported.foldl (fun sum s => sum + s.gap) (Arithmetic.ofNat 0) }

/-- The report on some occurrences. -/
def scoreOccurrences (scorer : Scorer α) (machine : Machine) (occurrences : List Occurrence)
    (filter : Bool) : Report α :=
  scorer.aggregate filter (scorer.rankSuggestions machine occurrences)

/-- The report on the occurrences that the extractor finds in a unit. -/
def scoreUnit (scorer : Scorer α) (machine : Machine) (unit : String) :
    Except Error (Report α) :=
  (scorer.extractor.extract unit).map fun occurrences =>
    scorer.scoreOccurrences machine occurrences true

/-! ### Units -/

/-- The report on a unit of a corpus, if the extractor can read it. -/
def rankUnit? (scorer : Scorer α) (unit : CorpusUnit) : Option (RankedUnit α) :=
  (scorer.extractor.extract unit.source).toOption.map fun occurrences => {
    name := unit.name
    report := scorer.aggregate true (scorer.suggestInTurn occurrences) }

/-- The greatest score first, then by name. -/
def unitOrder (a b : RankedUnit α) : Ordering :=
  (Arithmetic.order b.report.score a.report.score).then (compare a.name b.name)

/-- Scores units in chunks, the least natural first. Units that cannot be read are left out. -/
def rankUnits (scorer : Scorer α) (machine : Machine) (units : List CorpusUnit) :
    List (RankedUnit α) :=
  (machine.mapChunks scorer.chunkFactor (fun chunk => chunk.filterMap scorer.rankUnit?)
    units).flatten.mergeSort fun a b => (unitOrder a b).isLE

end Scorer

/-! ### Triage -/

/-- `x` moved into the interval from zero to one. NaN stays. -/
def toFraction (x : Float) : Float :=
  if x < 0 then 0 else if 1 < x then 1 else x

/-- How many of `length` things a fraction of them is, rounded up. -/
def shareOf (fraction : Float) (length : Nat) : Nat :=
  match Number.Reading.ofFloat (Float.ofNat length * toFraction fraction) with
  | .finite _ significand exponent => Number.ceilScaled significand exponent
  | _ => 0

/-- The first part of a list, as long as the fraction says. -/
def mostUnnatural {β : Type} (ranked : List β) (fraction : Float) : List β :=
  ranked.take (shareOf fraction ranked.length)

end NaturalNames
