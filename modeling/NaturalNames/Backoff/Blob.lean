import NaturalNames.Backoff
import NaturalNames.Wire.Reader

/-!
# `NaturalNames.Backoff.Blob`: models as bytes

A model is written as its order, its factor, its vocabulary and its trie. A map is written as
the list of its entries, and their order says nothing: of two entries with one key the later
counts. Nothing but the form is checked, so the bytes of no training run can be read, too, and
what follows a model is ignored.
-/

set_option autoImplicit false

namespace NaturalNames

open Wire

namespace CountTrie

mutual

/-- The bytes of a node: its count and its children. -/
def write : CountTrie → List UInt8
  | node count children =>
    writeVarint count ++ writeVarint children.length ++ writeChildren children

/-- Writes each child behind its id. -/
def writeChildren : List (Nat × CountTrie) → List UInt8
  | [] => []
  | (id, child) :: rest => writeVarint id ++ write child ++ writeChildren rest

end

/-- Puts children into a list by id. -/
def ofEntries (entries : List (TokenId × CountTrie)) : List (TokenId × CountTrie) :=
  entries.foldl (fun children e => Assoc.alter e.1 (fun _ => e.2) children) []

/-- Reads a node that is at most `depth` nodes deep. -/
def read : Nat → Reader CountTrie
  | 0 => failure
  | depth + 1 => do
    let count ← Reader.word64
    let entries ← Reader.list (Reader.pair Reader.word32 (read depth))
    return node count (ofEntries entries)

end CountTrie

namespace BackoffModel

/-- The bytes of a model whose maps are listed in the given order. -/
def bytesOf (order : Nat) (factor : Float) (ids : List (String × TokenId))
    (tokens : List String) (counts : CountTrie) : List UInt8 :=
  writeVarint order ++ writeFloat factor ++
    writeList (fun entry => writeText entry.1 ++ writeVarint entry.2) ids ++
    writeList writeText tokens ++ counts.write

/-- The bytes of a model, maps in the order of their keys. -/
def toBytes (model : BackoffModel) : List UInt8 :=
  bytesOf model.order model.factor model.vocabulary.ids.entries model.vocabulary.tokens
    model.counts

/-- Reads a model. A trie cannot be deeper than its bytes are many. -/
def read (depth : Nat) : Reader BackoffModel := do
  let order ← Reader.word64
  let factor ← Reader.float
  let ids ← Reader.list (Reader.pair Reader.text Reader.word32)
  let tokens ← Reader.list Reader.text
  let counts ← CountTrie.read depth
  return ⟨order, factor, ⟨.ofList ids, tokens⟩, counts⟩

/-- The model that bytes begin with. -/
def ofBytes (bytes : List UInt8) : Except Error BackoffModel :=
  match (read bytes.length).run bytes with
  | some (model, _) => .ok model
  | none => .error .malformedModel

end BackoffModel

end NaturalNames
