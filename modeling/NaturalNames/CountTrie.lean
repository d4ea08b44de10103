import NaturalNames.Ordered.Assoc
import NaturalNames.Vocabulary

/-!
# `NaturalNames.CountTrie`: counting n-grams

A trie of counts. The node that is reached by a sequence of ids says how many of the windows
counted so far begin with it, so the root counts all windows. Seen from outside a trie is the
function `count`; the operations say what they do to it.

* `add` counts one window: every beginning of it, the empty one too, counts one more.
* `merge` adds the counts of two tries, so windows can be counted in parts.
* `cutoffRare` forgets the n-grams of two tokens or more that were counted too rarely.

Counts are numbers of any size. `NaturalNames.Proofs.CountTrie.Words` says when words of 64 bits
hold them.
-/

set_option autoImplicit false

namespace NaturalNames

/-- A node of the trie. The root is a node like any other. -/
inductive CountTrie where
  | node (count : Nat) (children : List (Nat × CountTrie))

namespace CountTrie

/-- The windows that went through the root. -/
def total : CountTrie → Nat
  | node count _ => count

/-- The nodes below a node, with the id that leads to each. -/
def children : CountTrie → List (TokenId × CountTrie)
  | node _ children => children

/-- The trie in which nothing was counted. -/
def empty : CountTrie := node 0 []

instance : Inhabited CountTrie := ⟨empty⟩

/-- Counts a window. -/
def add : List TokenId → CountTrie → CountTrie
  | [], node count children => node (count + 1) children
  | id :: window, node count children =>
    node (count + 1) (Assoc.alter id (fun child? => add window (child?.getD empty)) children)

/-- The node that a sequence of ids leads to. -/
def nodeAt? : List TokenId → CountTrie → Option CountTrie
  | [], trie => some trie
  | id :: path, node _ children => (Assoc.get? id children).bind (nodeAt? path)

/-- How many windows began with this sequence. -/
def count (trie : CountTrie) (path : List TokenId) : Nat :=
  ((nodeAt? path trie).map total).getD 0

/-- The ids that went on from a sequence, with the count of each, ids ascending. -/
def continuations (trie : CountTrie) (path : List TokenId) : List (TokenId × Nat) :=
  match nodeAt? path trie with
  | some found => found.children.map fun child => (child.1, child.2.total)
  | none => []

/-! ### Merging -/

mutual

/-- Adds the counts of the second trie to those of the first. -/
def merge : CountTrie → CountTrie → CountTrie
  | node count children, node count' children' =>
    node (count + count') (mergeChildren children children')

/-- Merges each child of the second list into the first list. -/
def mergeChildren (children : List (TokenId × CountTrie)) :
    List (TokenId × CountTrie) → List (TokenId × CountTrie)
  | [] => children
  | (id, child) :: rest =>
    mergeChildren (Assoc.alter id (fun child? => merge (child?.getD empty) child) children) rest

end

/-! ### Forgetting rare n-grams -/

mutual

/-- Removes every child, of this node or of a node below it, that was counted at most
`threshold` times, with all that is below it. -/
def prune (threshold : Nat) : CountTrie → CountTrie
  | node count children => node count (pruneChildren threshold children)

/-- Removes the children that were counted too rarely and prunes the others. -/
def pruneChildren (threshold : Nat) :
    List (TokenId × CountTrie) → List (TokenId × CountTrie)
  | [] => []
  | (id, child) :: rest =>
    if threshold < child.total then (id, prune threshold child) :: pruneChildren threshold rest
    else pruneChildren threshold rest

end

mutual

/-- How many children `prune` takes from a node that it keeps. What is below them is not
counted. -/
def prunedCount (threshold : Nat) : CountTrie → Nat
  | node _ children => prunedChildren threshold children

/-- What pruning the children reports. -/
def prunedChildren (threshold : Nat) : List (TokenId × CountTrie) → Nat
  | [] => 0
  | (_, child) :: rest =>
    (if threshold < child.total then prunedCount threshold child else 1) +
      prunedChildren threshold rest

end

/-- Forgets the n-grams of at least two ids that were counted at most `threshold` times. Single
ids keep their counts. -/
def cutoffRare (threshold : Nat) : CountTrie → CountTrie
  | node count children =>
    if threshold = 0 then node count children
    else node count (children.map fun child => (child.1, prune threshold child.2))

/-- How many nodes `cutoffRare` takes from nodes that it keeps. -/
def removedByCutoff (threshold : Nat) (trie : CountTrie) : Nat :=
  if threshold = 0 then 0
  else trie.children.foldr (fun child n => prunedCount threshold child.2 + n) 0

/-! ### Size and equality -/

mutual

/-- The number of nodes below the root: of n-grams that are kept. -/
def size : CountTrie → Nat
  | node _ children => sizeChildren children

/-- The number of nodes in a list of children. -/
def sizeChildren : List (TokenId × CountTrie) → Nat
  | [] => 0
  | (_, child) :: rest => 1 + size child + sizeChildren rest

end

/-- Whether there is no node below the root. -/
def isEmpty (trie : CountTrie) : Bool := trie.children.isEmpty

mutual

/-- Two tries are equal if they hold the same nodes with the same counts. -/
def decEq : (a b : CountTrie) → Decidable (a = b)
  | node n xs, node m ys =>
    if hn : n = m then
      match decEqChildren xs ys with
      | isTrue h => isTrue (by rw [hn, h])
      | isFalse h => isFalse fun e => h (by injection e)
    else isFalse fun e => hn (by injection e)

/-- Whether two lists of children are equal, node by node. -/
def decEqChildren : (xs ys : List (TokenId × CountTrie)) → Decidable (xs = ys)
  | [], [] => isTrue rfl
  | [], _ :: _ => isFalse (by simp)
  | _ :: _, [] => isFalse (by simp)
  | (i, a) :: xs, (j, b) :: ys =>
    if hi : i = j then
      match decEq a b, decEqChildren xs ys with
      | isTrue ha, isTrue hxs => isTrue (by rw [hi, ha, hxs])
      | isFalse ha, _ => isFalse (by simp_all)
      | _, isFalse hxs => isFalse (by simp_all)
    else isFalse (by simp_all)

end

instance : DecidableEq CountTrie := decEq

end CountTrie

end NaturalNames
