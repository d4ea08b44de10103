/-!
# `NaturalNames.Machine`: work done in pieces

Long lists are worked on in chunks, several at a time, and the pieces of the result come in
whenever they are finished. A `Machine` says how many processors there are and in which order
the pieces come in; `mapChunks` puts them back in order. What the library computes depends on
neither, but for the rounding of one sum (`RankStats`), and to say so both have to be there.
-/

set_option autoImplicit false

namespace NaturalNames

/-- The part of a computer that chunked work can notice. -/
structure Machine where
  /-- How many pieces of work run at a time. -/
  processors : Nat
  /-- The order in which `n` pieces come in, by their numbers. -/
  arrival : Nat → List Nat
  /-- Every piece comes in once. -/
  arrival_perm : ∀ n, (arrival n).Perm (List.range n)

namespace Machine

/-- A machine on which the pieces come in one after the other. -/
def inTurn (processors : Nat) : Machine where
  processors := processors
  arrival := List.range
  arrival_perm _ := .refl _

/-- How many chunks a list is to be cut into: `factor` for each processor, where a factor of zero
counts as one. The product is one of words of 64 bits. -/
def chunkTarget (processors factor : Nat) : Nat := processors * max factor 1 % UInt64.size

/-- The least chunk length for which `items` items fill at most `chunks` chunks. -/
def chunkLength (items chunks : Nat) : Nat :=
  max 1 ((items + (max chunks 1 - 1)) / max chunks 1)

/-- Cuts a list every `size` items. The last piece may be shorter. -/
def splitEvery {α : Type} (size : Nat) : List α → List (List α)
  | [] => []
  | x :: rest => (x :: rest.take (size - 1)) :: splitEvery size (rest.drop (size - 1))
termination_by items => items.length

/-- The results in the order of their numbers. -/
def inOrder {β : Type} (messages : List (Nat × β)) : List β :=
  (messages.mergeSort fun a b => decide (a.1 ≤ b.1)).map Prod.snd

/-- The numbered results of `work` on the chunks, as they come in. -/
def messages {α β : Type} (machine : Machine) (work : List α → β) (chunks : List (List α)) :
    List (Nat × β) :=
  (machine.arrival chunks.length).filterMap fun i => chunks[i]?.map fun chunk => (i, work chunk)

/-- Does `work` on consecutive chunks of `items`, at most `factor` for each processor, and gives
the results in the order of the chunks. -/
def mapChunks {α β : Type} (machine : Machine) (factor : Nat) (work : List α → β)
    (items : List α) : List β :=
  inOrder <| machine.messages work <|
    splitEvery (chunkLength items.length (chunkTarget machine.processors factor)) items

end Machine

end NaturalNames
