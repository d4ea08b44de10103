import Mathlib.Algebra.GroupWithZero.Nat
import Mathlib.Algebra.Order.BigOperators.Group.List
import Mathlib.Algebra.Order.Group.Nat
import NaturalNames.CountTrie
import NaturalNames.Proofs.Ordered.Assoc

/-!
# `NaturalNames.Proofs.CountTrie.WellFormed`: the invariant of counting

A trie that was counted has more than its form. Each id stands once below a node, every child was
passed by some window, and the windows that pass the children of a node are among those that pass
the node. `WellFormed` says this of all nodes, and each operation keeps it:

* `WellFormed.add`, `WellFormed.merge`: counting, in one go or in parts.
* `WellFormed.prune`, `WellFormed.cutoffRare`: forgetting rare n-grams.

A trie read from bytes need not be well-formed, as its counts are whatever the bytes say.

The operations are described by `childAt`, the trie below an id, which is empty where the id was
not counted. With it a node without a child needs no case of its own: `childAt_merge` says that
the trie below an id of a merge is the merge of the tries below it.
-/

set_option autoImplicit false

namespace NaturalNames.CountTrie

/-- Induction over a trie: what is shown of a node may use it of every child. -/
@[elab_as_elim]
theorem induction {motive : CountTrie → Prop}
    (node : ∀ count children, (∀ child ∈ children, motive child.2) →
      motive (.node count children)) :
    ∀ trie, motive trie
  | .node count children => node count children fun child hchild =>
    have := List.sizeOf_lt_of_mem hchild
    induction node child.2
termination_by trie => sizeOf trie
decreasing_by
  obtain ⟨id, trie⟩ := child
  simp only [Prod.mk.sizeOf_spec, CountTrie.node.sizeOf_spec] at this ⊢
  omega

/-- The trie below an id. -/
def childAt (id : TokenId) (trie : CountTrie) : CountTrie :=
  (Assoc.get? id trie.children).getD empty

/-- Nothing went through the root of the empty trie. -/
@[simp]
theorem total_empty : empty.total = 0 := rfl

/-- A window that is counted goes through the root. -/
theorem total_add (window : List TokenId) (trie : CountTrie) :
    (add window trie).total = trie.total + 1 := by
  cases trie
  cases window <;> rfl

/-- Merging adds the totals. -/
theorem total_merge (a b : CountTrie) : (merge a b).total = a.total + b.total := by
  cases a
  cases b
  rw [merge]
  rfl

/-- Pruning takes children away and leaves the root as it is. -/
theorem total_prune (threshold : Nat) (trie : CountTrie) :
    (prune threshold trie).total = trie.total := by
  cases trie
  rw [prune]
  rfl

/-- However rare n-grams are, the number of windows stays. -/
theorem total_cutoffRare (threshold : Nat) (trie : CountTrie) :
    (cutoffRare threshold trie).total = trie.total := by
  cases trie
  rw [cutoffRare]
  split <;> rfl

/-! ### The invariant -/

/-- At every node the ids of the children ascend, each child was counted, and the windows through
the children are at most those through the node. -/
inductive WellFormed : CountTrie → Prop
  | node {count : Nat} {children : List (TokenId × CountTrie)}
      (ascending : Assoc.Ascending children)
      (counted : ∀ child ∈ children, 0 < child.2.total)
      (shared : (children.map fun child => child.2.total).sum ≤ count)
      (below : ∀ child ∈ children, WellFormed child.2) :
      WellFormed (.node count children)

namespace WellFormed

/-- A trie without children is well-formed. -/
theorem empty : WellFormed CountTrie.empty :=
  .node .nil (by simp) (by simp) (by simp)

/-- The children of a well-formed trie stand in the order of their ids. -/
theorem ascending {trie : CountTrie} (h : WellFormed trie) : Assoc.Ascending trie.children := by
  cases h with
  | node ascending counted shared below => exact ascending

/-- A child of a well-formed trie is well-formed, and so is the empty trie where there is no
child. -/
theorem childAt {trie : CountTrie} (h : WellFormed trie) (id : TokenId) :
    WellFormed (childAt id trie) := by
  cases h with
  | node ascending counted shared below =>
    rename_i count children
    show WellFormed ((Assoc.get? id children).getD .empty)
    cases hc : Assoc.get? id children with
    | none => exact .empty
    | some child =>
      obtain ⟨e, he, rfl⟩ := Assoc.exists_mem_of_get? hc
      exact below e he

end WellFormed

/-! ### Counting a window -/

/-- Counting a window counts its rest in the child of its first id and leaves all other children
alone. -/
theorem childAt_add {trie : CountTrie} (h : Assoc.Ascending trie.children) (id id' : TokenId)
    (window : List TokenId) :
    childAt id' (add (id :: window) trie) =
      if id' = id then add window (childAt id trie) else childAt id' trie := by
  cases trie with
  | node count children =>
    have hchildren : Assoc.Ascending children := h
    show (Assoc.get? id' (Assoc.alter id _ children)).getD empty = _
    rw [Assoc.get?_alter hchildren]
    split <;> rfl

/-- Counting a window keeps a trie well-formed. -/
theorem WellFormed.add {trie : CountTrie} (h : WellFormed trie) (window : List TokenId) :
    WellFormed (add window trie) := by
  induction window generalizing trie with
  | nil =>
    cases h with
    | node ascending counted shared below =>
      exact .node ascending counted (Nat.le_succ_of_le shared) below
  | cons id window ih =>
    -- Before `h` is taken apart, as the child may be missing and `childAt` covers that.
    have hchild := ih (h.childAt id)
    cases h with
    | node ascending counted shared below =>
      rename_i count children
      rw [CountTrie.add]
      refine .node ascending.alter ?_ ?_ ?_
      · refine Assoc.forall_mem_alter (p := fun child : CountTrie => 0 < child.total) counted ?_
        rw [total_add]
        exact Nat.succ_pos _
      · -- The child on the way of the window counts one more, and so does the node.
        have hsum := Assoc.sum_alter total id
          (fun child? => CountTrie.add window (child?.getD .empty)) children
        rw [total_add] at hsum
        cases hc : Assoc.get? id children with
        | none =>
          simp only [hc, Option.map_none, Option.getD_none, total_empty] at hsum
          omega
        | some child =>
          simp only [hc, Option.map_some, Option.getD_some] at hsum
          omega
      · exact Assoc.forall_mem_alter below hchild

/-! ### Merging -/

/-- Children are merged one after the other. -/
theorem mergeChildren_eq_foldl (children children' : List (TokenId × CountTrie)) :
    mergeChildren children children' =
      children'.foldl (fun m e => Assoc.alter e.1
        (fun child? => merge (child?.getD empty) e.2) m) children := by
  induction children' generalizing children with
  | nil => rw [mergeChildren]; rfl
  | cons e rest ih =>
    rw [mergeChildren, ih]
    rfl

/-- Merging the empty trie into another changes nothing. -/
theorem merge_empty (trie : CountTrie) : merge trie empty = trie := by
  cases trie with
  | node count children => rw [empty, merge, mergeChildren]; rfl

/-- The children of a merge are the merged children. -/
theorem childAt_merge {a b : CountTrie} (ha : Assoc.Ascending a.children)
    (hb : Assoc.Ascending b.children) (id : TokenId) :
    childAt id (merge a b) = merge (childAt id a) (childAt id b) := by
  cases a with
  | node n xs =>
    cases b with
    | node m ys =>
      have hxs : Assoc.Ascending xs := ha
      have hys : Assoc.Ascending ys := hb
      -- Merging the children is a run of changes, one for each child of the second trie.
      rw [merge, mergeChildren_eq_foldl]
      show (Assoc.get? id (List.foldl _ xs ys)).getD empty
        = merge ((Assoc.get? id xs).getD empty) ((Assoc.get? id ys).getD empty)
      rw [Assoc.get?_foldl_alter (fun child child? => merge (child?.getD empty) child) hxs hys]
      cases Assoc.get? id ys with
      | none => exact (merge_empty _).symm
      | some child => rfl

/-- Merging keeps tries well-formed. -/
theorem WellFormed.merge {a b : CountTrie} (ha : WellFormed a) (hb : WellFormed b) :
    WellFormed (merge a b) := by
  -- Along the second trie, as that is how its children come into the first.
  induction hb generalizing a with
  | node ascending' counted' shared' below' ih =>
    rename_i count' children'
    cases ha with
    | node ascending counted shared below =>
      rename_i count children
      rw [CountTrie.merge, mergeChildren_eq_foldl]
      -- Every child of the second trie changes the child of the first one with its id.
      let f := fun child (child? : Option CountTrie) => CountTrie.merge (child?.getD .empty) child
      refine .node (Assoc.ascending_foldl_alter f ascending) ?_ ?_ ?_
      · refine Assoc.forall_mem_foldl_alter (p := fun child : CountTrie => 0 < child.total)
          (f := f) counted ?_
        intro e he old _
        show 0 < (CountTrie.merge (old.getD .empty) e.2).total
        rw [total_merge]
        have := counted' e he
        omega
      · have hsum := Assoc.sum_foldl_alter f total total
          (fun child child? => by cases child? <;> simp [f, total_merge]) children' children
        exact Nat.le_trans (Nat.le_of_eq hsum) (Nat.add_le_add shared shared')
      · refine Assoc.forall_mem_foldl_alter (p := WellFormed) (f := f) below ?_
        intro e he old hold
        refine ih e he ?_
        cases old with
        | none => exact .empty
        | some child => exact hold child rfl

/-! ### Forgetting rare n-grams -/

/-- The children that stay are those counted often enough, themselves pruned. -/
theorem pruneChildren_eq_map (threshold : Nat) (children : List (TokenId × CountTrie)) :
    pruneChildren threshold children =
      (children.filter fun child => threshold < child.2.total).map
        fun child => (child.1, prune threshold child.2) := by
  induction children with
  | nil => rw [pruneChildren]; rfl
  | cons child rest ih =>
    rw [pruneChildren, ih]
    by_cases hc : threshold < child.2.total
    · simp [hc]
    · simp [hc]

/-- There is nothing to prune in the empty trie. -/
theorem prune_empty (threshold : Nat) : prune threshold empty = empty := by
  rw [empty, prune, pruneChildren]

/-- A child that was counted often enough is pruned itself, and any other goes with all that is
below it. -/
theorem childAt_prune {trie : CountTrie} (h : Assoc.Ascending trie.children) (threshold : Nat)
    (id : TokenId) :
    childAt id (prune threshold trie) =
      if threshold < (childAt id trie).total then prune threshold (childAt id trie)
      else empty := by
  cases trie with
  | node count children =>
    have hchildren : Assoc.Ascending children := h
    -- Pruning the children is a filter and a map, and both keep what is found under an id.
    rw [prune, pruneChildren_eq_map]
    show (Assoc.get? id (List.map _ _)).getD empty
      = if threshold < ((Assoc.get? id children).getD empty).total then
          prune threshold ((Assoc.get? id children).getD empty) else empty
    rw [Assoc.get?_mapValues,
      Assoc.get?_filter (fun _ child => decide (threshold < child.total)) hchildren]
    cases Assoc.get? id children with
    | none => simp
    | some child => by_cases hc : threshold < child.total <;> simp [Option.filter, hc]

/-- Forgetting rare n-grams keeps every child of the root and prunes it. -/
theorem childAt_cutoffRare {threshold : Nat} (h : threshold ≠ 0) (trie : CountTrie)
    (id : TokenId) :
    childAt id (cutoffRare threshold trie) = prune threshold (childAt id trie) := by
  cases trie with
  | node count children =>
    rw [cutoffRare, if_neg h]
    show (Assoc.get? id (List.map _ children)).getD empty
      = prune threshold ((Assoc.get? id children).getD empty)
    rw [Assoc.get?_mapValues]
    cases Assoc.get? id children with
    | none => exact (prune_empty threshold).symm
    | some child => rfl

/-- Pruned children count no more together than they did before. -/
private theorem sum_pruneChildren_le (threshold : Nat) (children : List (TokenId × CountTrie)) :
    ((pruneChildren threshold children).map fun child => child.2.total).sum
      ≤ (children.map fun child => child.2.total).sum := by
  induction children with
  | nil => simp [pruneChildren]
  | cons child rest ih =>
    rw [pruneChildren]
    split
    · simp only [List.map_cons, List.sum_cons, total_prune]
      omega
    · simp only [List.map_cons, List.sum_cons]
      omega

/-- Pruning keeps a trie well-formed. -/
theorem WellFormed.prune {trie : CountTrie} (h : WellFormed trie) (threshold : Nat) :
    WellFormed (prune threshold trie) := by
  induction h with
  | node ascending counted shared below ih =>
    rw [CountTrie.prune]
    -- Fewer children, each with the total it had, so their sum does not grow.
    have hle := sum_pruneChildren_le threshold
    refine .node ?_ ?_ (Nat.le_trans (hle _) shared) ?_ <;> rw [pruneChildren_eq_map]
    · exact Assoc.Ascending.mapValues _ (List.Pairwise.filter _ ascending)
    · intro child hchild
      obtain ⟨e, he, rfl⟩ := List.mem_map.1 hchild
      rw [total_prune]
      exact counted e ((List.mem_filter.1 he).1)
    · intro child hchild
      obtain ⟨e, he, rfl⟩ := List.mem_map.1 hchild
      exact ih e ((List.mem_filter.1 he).1)

/-- Forgetting rare n-grams keeps a trie well-formed. -/
theorem WellFormed.cutoffRare {trie : CountTrie} (h : WellFormed trie) (threshold : Nat) :
    WellFormed (cutoffRare threshold trie) := by
  cases h with
  | node ascending counted shared below =>
    rw [CountTrie.cutoffRare]
    split
    · exact .node ascending counted shared below
    · -- The root keeps its children and their totals, so only what is below them changes.
      refine .node (Assoc.Ascending.mapValues _ ascending) ?_ ?_ ?_
      · intro child hchild
        obtain ⟨e, he, rfl⟩ := List.mem_map.1 hchild
        rw [total_prune]
        exact counted e he
      · rw [List.map_map]
        simpa only [Function.comp_def, total_prune] using shared
      · intro child hchild
        obtain ⟨e, he, rfl⟩ := List.mem_map.1 hchild
        exact (below e he).prune threshold

end NaturalNames.CountTrie
