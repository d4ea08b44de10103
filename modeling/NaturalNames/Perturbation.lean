import NaturalNames.RankStats
import NaturalNames.Scorer

/-!
# `NaturalNames.Perturbation`: scoring the scorer

Put a junk name in place of a good one, and the scorer should list the junk name first. This is
done for each occurrence in turn, and the ranks are recorded.
-/

set_option autoImplicit false

namespace NaturalNames

/-! ### Junk names -/

/-- The junk name that is used when all others are taken. -/
def lastJunkName : String := "mblamblambla"

/-- The numbered junk names that are not in use. -/
def freeJunkNames (used : SortedSet String) : List String :=
  (((List.range 1000).map fun n => "junk" ++ Number.digits (n + 1))).filter fun name =>
    !used.contains name

/-- The free junk name that a draw from the natural numbers picks. -/
def sampleJunkName (draw : Nat) (used : SortedSet String) : String :=
  let free := freeJunkNames used
  (free[draw % free.length]?).getD lastJunkName

/-! ### Perturbed scopes -/

/-- A token with one name in place of another, alone or between two `%`. -/
def renameToken (old new token : String) : String :=
  if token = old then new
  else
    let wrapped := "%" ++ old ++ "%"
    if Text.occurs wrapped token then Text.replace wrapped ("%" ++ new ++ "%") token else token

/-- The scope with one name in place of another. The snippet is written anew, with a space
between tokens. -/
def perturbScope (tokenizer : Tokenizer) (scope : Scope) (old new : String) :
    Except Error Scope :=
  (tokenizer.texts scope.snippet).map fun tokens =>
    scope.withSnippet (" ".intercalate (tokens.map (renameToken old new)))

namespace Scorer

variable {α β : Type} [Arithmetic α] [Arithmetic β]

/-- The occurrences of one scope, after the name of `o` there has become `junk`. -/
def perturbedGroup (occurrences : List Occurrence) (o : Occurrence) (perturbed : Scope)
    (junk : String) : List Occurrence :=
  (occurrences.filter fun other => other.scope = o.scope).map fun other =>
    ⟨perturbed, if other.name = o.name then junk else other.name⟩

/-- Records the rank of `junk` when it takes the place of the name of `o`. An occurrence in a
snippet without tokens is passed over. -/
def recordPerturbation (scorer : Scorer α) (occurrences : List Occurrence) (junk : String)
    (stats : RankStats β) (o : Occurrence) : RankStats β :=
  match perturbScope scorer.renamer.tokenizer o.scope o.name junk with
  | .ok perturbed =>
    stats.recordSuggestions
      (scorer.suggestInTurn (perturbedGroup occurrences o perturbed junk)) junk
  | .error _ => stats

/-- Puts `junk` in place of each occurrence in turn and records its rank. Every chunk of
occurrences is recorded by itself. -/
def evaluatePerturbations (scorer : Scorer α) (machine : Machine)
    (occurrences : List Occurrence) (junk : String) : RankStats β :=
  (machine.mapChunks scorer.chunkFactor
    (fun chunk => chunk.foldl (scorer.recordPerturbation occurrences junk) .empty)
    occurrences).foldl RankStats.merge .empty

end Scorer

end NaturalNames
