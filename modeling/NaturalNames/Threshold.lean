import NaturalNames.Renaming

/-!
# `NaturalNames.Threshold`: which renamings are worth a report

A name whose score is above the threshold of its kind is not reported, and of the others only the
best few are. The symbol for unknown names always is: it stands for leaving the name alone.
-/

set_option autoImplicit false

namespace NaturalNames

/-- What is worth a report. -/
structure ThresholdConfig where
  /-- The greatest score for a variable. -/
  var : Float := 6
  /-- The greatest score for a method. -/
  method : Float := 1
  /-- The greatest score for a type. -/
  typeName : Float := 1
  /-- The most renamings in one suggestion. -/
  maxRank : Nat := 5
  /-- A suggestion is reported if its gap is above this. -/
  reportingFloor : Float := 0
  /-- Whether the symbol for unknown names stands for the current name, too. -/
  useUnknown : Bool := true

namespace ThresholdConfig

/-- The greatest score for a kind of name. -/
def thresholdFor (config : ThresholdConfig) : NameKind → Float
  | .var => config.var
  | .method => config.method
  | .type => config.typeName

/-- The settings that have to be finite, with their names. -/
def finiteSettings (config : ThresholdConfig) : List (String × Float) := [
  ("variable", config.var), ("method", config.method), ("type_name", config.typeName),
  ("reporting_floor", config.reportingFloor)]

/-- Refuses a configuration, naming the first setting that is out of range. -/
def validate (config : ThresholdConfig) : Except Error Unit :=
  match config.finiteSettings.find? fun setting => !Number.isFinite setting.2 with
  | some setting => .error (.config (.threshold setting.1))
  | none => if config.maxRank = 0 then .error (.config .maxRankZero) else .ok ()

end ThresholdConfig

namespace Ranking

variable {α : Type} [Arithmetic α]

/-- The renamings before the first one above the threshold, and at most `maxRank` of them. -/
def worthReporting (ranking : Ranking α) (threshold : α) (maxRank : Nat) : Ranking α :=
  (ranking.takeWhile fun r => r.score ≤ threshold).take maxRank

/-- The symbol for unknown names at the threshold. It takes the scope of the ranking. -/
def unknownAt (ranking : Ranking α) (threshold : α) : Renaming α where
  name := unknownSymbol
  score := threshold
  contexts := 0
  scope := ranking.first?.bind Renaming.scope

/-- The renamings worth reporting, and the symbol for unknown names. If that was cut off it is put
back at the threshold, and nothing stays behind it. -/
def applyThreshold (ranking : Ranking α) (threshold : α) (maxRank : Nat) : Ranking α :=
  let kept := worthReporting ranking threshold maxRank
  if kept.toList.any Renaming.isUnknown then kept
  else
    let unknown := unknownAt ranking threshold
    (kept.filter fun r => compare r unknown = .lt).insert unknown

/-- Whether a renaming leaves the name alone: it is the current name or, with `useUnknown`, the
symbol for unknown names. -/
def keeps (current : String) (useUnknown : Bool) (r : Renaming α) : Bool :=
  r.name = current || (useUnknown && r.isUnknown)

/-- How much worse than the best renaming it is to leave the name alone. -/
def confidenceGap? (ranking : Ranking α) (current : String) (useUnknown : Bool) : Option α :=
  ranking.first?.bind fun top =>
    (ranking.toList.find? (keeps current useUnknown)).map fun r => r.score - top.score

end Ranking

end NaturalNames
