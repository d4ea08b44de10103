import NaturalNames.NGram
import NaturalNames.Ordered.Set
import NaturalNames.Token

/-!
# `NaturalNames.NGram.Window`: the contexts of a name

A name is judged by every n-gram of its surroundings that holds it. For an occurrence at position
`p` and a model of order `N` these are the windows of `N` tokens that end at `p`, `p + 1`, …,
`p + N - 1`. They are cut off at the beginning of the code. At its end there are two readings:

* `contextsAt` cuts windows off there too, so that every occurrence has `N` of them;
* `formattingContexts` leaves them out.
-/

set_option autoImplicit false

namespace NaturalNames

/-- A stretch of positions, both ends included. -/
structure Window where
  first : Nat
  last : Nat
deriving DecidableEq, Repr

namespace Window

/-- The window of `order` tokens that ends at `last`, cut off at the beginning. -/
def endingAt (order last : Nat) : Window := ⟨last + 1 - order, last⟩

/-- The windows around `position` in a text of `length` tokens, cut off at both ends. -/
def around (order length position : Nat) : List Window :=
  (List.range order).map fun i =>
    { endingAt order (position + i) with last := min (position + i) (length - 1) }

/-- Where the last of the windows around `position` ends that end inside a text of `length` tokens.
The sum is one of words of 64 bits. -/
def lastEnd (order length position : Nat) : Nat :=
  min ((position + order - 1) % UInt64.size) (length - 1)

/-- The windows around `position` that end inside a text of `length` tokens. -/
def inside (order length position : Nat) : List Window :=
  (List.range' position (lastEnd order length position + 1 - position)).map (endingAt order)

/-- The tokens in a window. -/
def slice (window : Window) (tokens : List String) : List String :=
  (tokens.drop window.first).take (window.last + 1 - window.first)

/-- The n-grams in a list of windows, none for a window that holds no token. -/
def ngrams (windows : List Window) (tokens : List String) : List NGram :=
  windows.filterMap fun window => NGram.ofList? (window.slice tokens)

end Window

/-- Every window around one of the positions. A window around two of them counts twice.
Positions behind the last token have none. -/
def contextsAt (order : Nat) (tokens : List String) (positions : SortedSet Nat) : ContextSet :=
  .ofKeys <| (positions.filter (· < tokens.length)).toList.flatMap fun position =>
    Window.ngrams (Window.around order tokens.length position) tokens

/-- The windows around one position that end before the end of the code, with the wildcard at
that position. -/
def formattingContexts (order index : Nat) (tokens : List String) : ContextSet :=
  if index < tokens.length then
    .ofKeys (Window.ngrams (Window.inside order tokens.length index) (tokens.set index wildcard))
  else .empty

/-! ### The occurrences of a name in a snippet -/

/-- A token is an occurrence of a name if it is the name or holds it between two `%`. -/
def isOccurrence (name token : String) : Bool :=
  token = name || Text.occurs ("%" ++ name ++ "%") token

/-- The positions of the occurrences of a name. -/
def occurrencePositions (name : String) (tokens : List String) : SortedSet Nat :=
  .ofList ((List.range tokens.length).filter fun i => tokens[i]?.any (isOccurrence name))

/-- The tokens with the wildcard in place of the name in each of its occurrences. -/
def maskOccurrences (name : String) (tokens : List String) : List String :=
  tokens.map fun token =>
    if isOccurrence name token then Text.replace name wildcard token else token

/-- The contexts of a name in a list of tokens. -/
def nameContexts (order : Nat) (name : String) (tokens : List String) : ContextSet :=
  contextsAt order (maskOccurrences name tokens) (occurrencePositions name tokens)

end NaturalNames
