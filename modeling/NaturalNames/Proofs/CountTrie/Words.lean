import NaturalNames.Proofs.CountTrie.Count

/-!
# `NaturalNames.Proofs.CountTrie.Words`: counts of 64 bits

The counts of a trie are numbers of any size here. A machine keeps them in words of 64 bits, and
what it adds up there is left modulo `2 ^ 64`. `wrap` takes all counts of a trie modulo that number,
so `mergeWords` is the merge of such a machine.

No count of a trie exceeds its total. If the total is below `2 ^ 64` the words are therefore the
counts (`wrap_eq_self`), and what the machine does is what is said of counts of any size.
-/

set_option autoImplicit false

namespace NaturalNames.CountTrie

mutual

/-- The trie with all counts modulo `2 ^ 64`. The nodes stay, those with a count of zero too. -/
def wrap : CountTrie → CountTrie
  | node count children => node (count % 2 ^ 64) (wrapChildren children)

/-- The children with all counts modulo `2 ^ 64`. -/
def wrapChildren : List (TokenId × CountTrie) → List (TokenId × CountTrie)
  | [] => []
  | (id, child) :: rest => (id, wrap child) :: wrapChildren rest

end

/-- Merges tries whose counts are words. -/
def mergeWords (a b : CountTrie) : CountTrie := (merge a b).wrap

/-- Children that stay the same one by one stay the same together. -/
private theorem wrapChildren_eq_self {children : List (TokenId × CountTrie)}
    (h : ∀ child ∈ children, wrap child.2 = child.2) : wrapChildren children = children := by
  induction children with
  | nil => rfl
  | cons child rest ih =>
    rw [wrapChildren, h child List.mem_cons_self, ih fun c hc => h c (List.mem_cons_of_mem _ hc)]

/-- Words hold the counts of a trie if they hold its total. -/
theorem wrap_eq_self {trie : CountTrie} (h : Falling trie) (hlt : trie.total < 2 ^ 64) :
    trie.wrap = trie := by
  -- The bound is handed down, as no child counts more than its parent.
  induction h with
  | @node count children atMost below ih =>
    have hcount : count % 2 ^ 64 = count := Nat.mod_eq_of_lt hlt
    have hchildren : wrapChildren children = children := wrapChildren_eq_self fun child hchild =>
      ih child hchild (Nat.lt_of_le_of_lt (atMost child hchild) hlt)
    rw [wrap, hcount, hchildren]

/-- A merge whose total is below `2 ^ 64` is the same in words. -/
theorem mergeWords_eq_merge {a b : CountTrie} (ha : WellFormed a) (hb : WellFormed b)
    (hlt : a.total + b.total < 2 ^ 64) : mergeWords a b = merge a b :=
  wrap_eq_self (ha.merge hb).falling (by rwa [total_merge])

end NaturalNames.CountTrie
