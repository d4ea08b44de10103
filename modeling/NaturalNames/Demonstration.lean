import NaturalNames.Backoff.Training
import NaturalNames.Error
import NaturalNames.Scorer
import NaturalNames.Strategy
import NaturalNames.Token.Lexer
import NaturalNames.Walk

/-!
# `NaturalNames.Demonstration`: a tour of the library

Trains a model on a directory of C files, or on a small corpus of its own, and shows the best
names for one identifier and the units that look least natural. The result is a transcript; what
prints it is in `NaturalNames.Main`.
-/

set_option autoImplicit false

namespace NaturalNames.Demonstration

/-- What the demonstration prints, and the error that ended it, if any did. -/
structure Transcript where
  /-- The texts that are printed, each with a line end behind it. -/
  printed : List String
  error? : Option Error

/-- Two loops, fifty times each, and one that calls its counter by an odd name. -/
def corpus : List CorpusUnit :=
  (List.range 50).flatMap (fun i => [
    ⟨"counter" ++ Number.digits i ++ ".c",
      "int count = 0; for (int i = 0; i < size; i++) \x7b count = count + 1; \x7d return count;"⟩,
    ⟨"sum" ++ Number.digits i ++ ".c",
      "int total = 0; for (int i = 0; i < size; i++) \x7b total = total + values[i]; \x7d " ++
        "return total;"⟩])
  ++ [⟨"odd.c",
    "int cnt = 0; for (int i = 0; i < size; i++) \x7b cnt = cnt + 1; \x7d return cnt;"⟩]

/-- The units to show: the C files of a walk, or the corpus above if no directory was given. -/
def unitsOf : Option (Except Error Walk) → Except Error (List CorpusUnit)
  | some found => found.map fun walk => walk.units "c"
  | none => .ok corpus

/-- Words that were seen once count, as the corpus may be tiny. -/
def modelConfig : ModelConfig := { vocabularyCutoff := 0 }

/-- The name that is ranked, and the code around it. -/
def sample : Occurrence := ⟨.ofSnippet "int cnt = 0; cnt = cnt + 1;" .var, "cnt"⟩

/-- The line for a ranked unit. -/
def unitLine (unit : RankedUnit Float) : String :=
  "  " ++ unit.name ++ " score:" ++ Number.fixed 3 unit.report.score ++
    " log2 P(no rename):" ++ Number.fixed 3 unit.report.logKeepProbability ++ " " ++
    unit.report.toText

/-- The lines of the demonstration on some units. -/
def linesFor (machine : Machine) (units : List CorpusUnit) : Except Error (List String) := do
  let outcome ← BackoffModel.train machine .code modelConfig units
  let extractor := ScopeExtractor.flat .code .var
  let grammar := GrammarPrior.build machine extractor units modelConfig.chunkFactor
  let strategy ← Strategy.ofText "base"
  let renamer : Renamer Float ← strategy.build
    { model := outcome.model, grammarPrior := some grammar, tokenizer := .code } {}
  let scorer ← Scorer.ofRenamer renamer extractor {}
  return outcome.skipped.map (fun unit => "Skipped " ++ unit.name ++ ": " ++ unit.reason) ++
    ("Renamings of '" ++ sample.name ++ "':") ::
    ((renamer.rank sample.scope sample.name).toList.take 5).map (fun r => "  " ++ r.toText) ++
    "Most unnatural units:" ::
    (mostUnnatural (scorer.rankUnits machine units) 0.1).map unitLine

/-- The demonstration on a directory or on the corpus above. Where something fails, the walk
included, it prints nothing. -/
def run (machine : Machine) (found : Option (Except Error Walk)) : Transcript :=
  match unitsOf found >>= linesFor machine with
  | .ok lines => ⟨lines, none⟩
  | .error e => ⟨[], some e⟩

/-- A line without the carriage return that belongs to its end. -/
def withoutReturn (line : List Char) : List Char :=
  if line.getLast? = some '\r' then line.dropLast else line

/-- The lines that a reader of the output sees. The name of a unit may hold line ends, so one
printed text can be several lines. -/
def Transcript.lines (transcript : Transcript) : List String :=
  transcript.printed.flatMap fun text =>
    (text.toList.splitOn '\n').map fun line => String.ofList (withoutReturn line)

/-- The exit status that a transcript calls for. -/
def Transcript.status (transcript : Transcript) : Nat :=
  if transcript.error?.isSome then 1 else 0

end NaturalNames.Demonstration
