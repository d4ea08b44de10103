import NaturalNames.Proofs.CountTrie.WellFormed

/-!
# `NaturalNames.Proofs.CountTrie.Ids`: the ids in a trie

A trie holds no ids but those of the windows that were counted, and forgetting adds none. So if the
ids of a vocabulary are below its size, all ids in a trie counted with it are.
-/

set_option autoImplicit false

namespace NaturalNames.CountTrie

/-- All ids in the trie are below a bound. -/
inductive IdsBelow (bound : Nat) : CountTrie → Prop
  | node {count : Nat} {children : List (TokenId × CountTrie)}
      (ids : ∀ child ∈ children, child.1 < bound)
      (below : ∀ child ∈ children, IdsBelow bound child.2) : IdsBelow bound (.node count children)

namespace IdsBelow

variable {bound : Nat}

/-- The empty trie has no ids. -/
theorem empty : IdsBelow bound CountTrie.empty :=
  .node (fun _ hchild => nomatch hchild) (fun _ hchild => nomatch hchild)

/-- Ids below a bound are below any greater one. -/
theorem mono {bound' : Nat} {trie : CountTrie} (h : IdsBelow bound trie) (hle : bound ≤ bound') :
    IdsBelow bound' trie := by
  induction h with
  | node ids below ih => exact .node (fun child hmem => Nat.lt_of_lt_of_le (ids child hmem) hle) ih

/-- A window with ids below the bound brings no others into a trie. -/
theorem add {window : List TokenId} (hwindow : ∀ id ∈ window, id < bound) {trie : CountTrie}
    (h : IdsBelow bound trie) : IdsBelow bound (add window trie) := by
  induction window generalizing trie with
  | nil =>
    cases h with
    | node ids below => exact .node ids below
  | cons id window ih =>
    cases h with
    | @node count children ids below =>
      have hrest : ∀ id ∈ window, id < bound := by
        intro id hid
        exact hwindow id (List.mem_cons_of_mem _ hid)
      -- The child on the way of the window, which may not have been there before.
      have hchild : IdsBelow bound
          (CountTrie.add window ((Assoc.get? id children).getD CountTrie.empty)) := by
        refine ih hrest ?_
        cases hget : Assoc.get? id children with
        | none => exact empty
        | some child =>
          obtain ⟨e, he, rfl⟩ := Assoc.exists_mem_of_get? hget
          exact below e he
      rw [CountTrie.add]
      refine .node ?_ (Assoc.forall_mem_alter below hchild)
      intro child hmem
      -- The only id that may be new is the one that the window begins with.
      rcases Assoc.fst_of_mem_alter hmem with heq | ⟨e, he, heq⟩
      · rw [heq]
        exact hwindow id (List.mem_cons_self ..)
      · rw [← heq]
        exact ids e he

/-- Windows with ids below the bound bring no others into a trie. -/
theorem foldl_add {windows : List (List TokenId)}
    (hwindows : ∀ window ∈ windows, ∀ id ∈ window, id < bound) {trie : CountTrie}
    (h : IdsBelow bound trie) :
    IdsBelow bound (windows.foldl (fun trie window => trie.add window) trie) := by
  induction windows generalizing trie with
  | nil => exact h
  | cons window rest ih =>
    exact ih (fun window' hmem => hwindows window' (List.mem_cons_of_mem _ hmem))
      (h.add (hwindows window (List.mem_cons_self ..)))

/-- Pruning brings no ids into a trie. -/
theorem prune {trie : CountTrie} (h : IdsBelow bound trie) (threshold : Nat) :
    IdsBelow bound (prune threshold trie) := by
  induction h with
  | node ids below ih =>
    rw [CountTrie.prune, pruneChildren_eq_map]
    constructor
    · intro child hchild
      obtain ⟨e, he, rfl⟩ := List.mem_map.1 hchild
      exact ids e (List.mem_filter.1 he).1
    · intro child hchild
      obtain ⟨e, he, rfl⟩ := List.mem_map.1 hchild
      exact ih e (List.mem_filter.1 he).1

/-- Forgetting rare n-grams brings no ids into a trie. -/
theorem cutoffRare {trie : CountTrie} (h : IdsBelow bound trie) (threshold : Nat) :
    IdsBelow bound (cutoffRare threshold trie) := by
  cases h with
  | node ids below =>
    rw [CountTrie.cutoffRare]
    split
    · exact .node ids below
    · constructor
      · intro child hchild
        obtain ⟨e, he, rfl⟩ := List.mem_map.1 hchild
        exact ids e he
      · intro child hchild
        obtain ⟨e, he, rfl⟩ := List.mem_map.1 hchild
        exact (below e he).prune threshold

end IdsBelow

end NaturalNames.CountTrie
