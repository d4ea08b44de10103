import NaturalNames.Backoff.Blob
import NaturalNames.Proofs.CountTrie.Ids
import NaturalNames.Proofs.Ordered.Map
import NaturalNames.Proofs.Wire.Reader

/-!
# `NaturalNames.Proofs.CountTrie.Write`: tries as bytes

The children of a node form a map, so they may be written in any order, at every node in another
one. `Listing trie listed` says that `listed` is `trie` with its children in some order; writing
`listed` as it stands is then a way to write `trie`.

`Listing.reads` is the round trip for every listing at once. The depth that the reader is given
matters as little as the listing does, as long as it is not less than the number of bytes: a node
takes up bytes of its own, so its children are given less than it is.
-/

set_option autoImplicit false

namespace NaturalNames.CountTrie

open Wire Wire.Reader

/-- The tries of numbers that their widths hold. -/
inductive Representable : CountTrie → Prop
  | node {count : Nat} {children : List (TokenId × CountTrie)} (count_lt : count < 2 ^ 64)
      (ascending : Assoc.Ascending children) (ids_lt : ∀ child ∈ children, child.1 < 2 ^ 32)
      (below : ∀ child ∈ children, Representable child.2) : Representable (.node count children)

/-- A well-formed trie is representable if its root and its ids are. -/
theorem WellFormed.representable {trie : CountTrie} (h : WellFormed trie)
    (htotal : trie.total < 2 ^ 64) (hids : IdsBelow (2 ^ 32) trie) : Representable trie := by
  induction h with
  | node ascending counted shared below ih =>
    cases hids with
    | node ids idsBelow =>
      refine .node htotal ascending ids ?_
      intro child hchild
      refine ih child hchild ?_ (idsBelow child hchild)
      -- No child counts more than its parent, so the bound of the root is one for all nodes.
      have hle := List.le_sum_of_mem (List.mem_map_of_mem (f := fun c => c.2.total) hchild)
      exact Nat.lt_of_le_of_lt (Nat.le_trans hle shared) htotal

mutual

/-- The second trie is the first one, with the children of every node in some order. -/
inductive Listing : CountTrie → CountTrie → Prop
  | node {count : Nat} {children order listed : List (TokenId × CountTrie)}
      (perm : order.Perm children) (below : ListedChildren order listed) :
      Listing (.node count children) (.node count listed)

/-- The same children in the same order, but not what is below them. -/
inductive ListedChildren : List (TokenId × CountTrie) → List (TokenId × CountTrie) → Prop
  | nil : ListedChildren [] []
  | cons {id : TokenId} {child listed : CountTrie} {rest rest' : List (TokenId × CountTrie)}
      (first : Listing child listed) (others : ListedChildren rest rest') :
      ListedChildren ((id, child) :: rest) ((id, listed) :: rest')

end

/-- Children that are listed one by one have equal ids and are listed themselves. -/
theorem ListedChildren.forall₂ {order listed : List (TokenId × CountTrie)} :
    ListedChildren order listed →
      List.Forall₂ (fun child child' => child.1 = child'.1 ∧ Listing child.2 child'.2) order listed
  | .nil => .nil
  | .cons first others => .cons ⟨rfl, first⟩ others.forall₂

/-- Children that can be listed as they are can be so together. -/
theorem ListedChildren.of_forall {children : List (TokenId × CountTrie)}
    (h : ∀ child ∈ children, Listing child.2 child.2) : ListedChildren children children := by
  induction children with
  | nil => exact .nil
  | cons child rest ih =>
    refine .cons (h child (List.mem_cons_self ..)) (ih ?_)
    intro child' hchild'
    exact h child' (List.mem_cons_of_mem _ hchild')

/-- A trie is a listing of itself. -/
theorem Listing.refl (trie : CountTrie) : Listing trie trie := by
  induction trie using CountTrie.induction with
  | node count children ih => exact .node (.refl children) (.of_forall ih)

/-- The children of the root in another order make a listing. -/
theorem Listing.of_perm {trie : CountTrie} {listed : List (TokenId × CountTrie)}
    (h : listed.Perm trie.children) : Listing trie (.node trie.total listed) := by
  cases trie with
  | node count children => exact .node h (.of_forall fun child _ => .refl child.2)

/-! ### Writing -/

/-- The bytes of a child. -/
def writeChild (child : TokenId × CountTrie) : List UInt8 := writeVarint child.1 ++ child.2.write

/-- Children are written one behind the other. -/
theorem writeChildren_eq_flatMap (children : List (TokenId × CountTrie)) :
    writeChildren children = children.flatMap writeChild := by
  induction children with
  | nil => rfl
  | cons child rest ih =>
    rw [writeChildren, ih]
    rfl

/-- A node is written as its count and the list of its children. -/
theorem write_node (count : Nat) (children : List (TokenId × CountTrie)) :
    write (.node count children)
      = writeVarint count ++ writeList writeChild children := by
  rw [write, writeChildren_eq_flatMap, writeList, List.append_assoc]

/-- A child is written in fewer bytes than its parent. -/
theorem length_write_lt (count : Nat) {children : List (TokenId × CountTrie)}
    {child : TokenId × CountTrie} (h : child ∈ children) :
    child.2.write.length < (write (.node count children)).length := by
  have hpos := length_writeVarint_pos count
  have hle : (writeChild child).length ≤ (children.flatMap writeChild).length := by
    rw [List.length_flatMap]
    exact List.le_sum_of_mem (List.mem_map_of_mem h)
  rw [writeChild, List.length_append] at hle
  rw [write_node, writeList, List.length_append, List.length_append]
  omega

/-- A relation between lists item by item may use that the items are in the lists. -/
theorem forall₂_of_mem {α β : Type} {R S : α → β → Prop} {xs : List α} {ys : List β}
    (h : List.Forall₂ R xs ys) (himp : ∀ x ∈ xs, ∀ y ∈ ys, R x y → S x y) :
    List.Forall₂ S xs ys := by
  induction h with
  | nil => exact .nil
  | cons hfirst _ ih =>
    refine .cons (himp _ (List.mem_cons_self ..) _ (List.mem_cons_self ..) hfirst) (ih ?_)
    intro x hx y hy
    exact himp x (List.mem_cons_of_mem _ hx) y (List.mem_cons_of_mem _ hy)

/-- All listings of a trie take up equally many bytes. -/
theorem Listing.length_write {trie listed : CountTrie} (h : Listing trie listed) :
    listed.write.length = trie.write.length := by
  induction listed using CountTrie.induction generalizing trie with
  | node count listed ih =>
    cases h with
    | @node _ children order _ perm below =>
      -- Child by child the lengths agree by induction, and a sum does not depend on the order.
      have hlengths : order.map (fun child => (writeChild child).length)
          = listed.map fun child => (writeChild child).length := by
        rw [← List.forall₂_eq_eq_eq, List.forall₂_map_left_iff, List.forall₂_map_right_iff]
        refine forall₂_of_mem below.forall₂ ?_
        intro child _ child' hchild' hlisted
        rw [writeChild, writeChild, List.length_append, List.length_append, hlisted.1,
          ih child' hchild' hlisted.2]
      have hlength : listed.length = children.length := by
        rw [← below.forall₂.length_eq, perm.length_eq]
      rw [write_node, write_node, writeList, writeList, hlength, List.length_append,
        List.length_append, List.length_append, List.length_append, List.length_flatMap,
        List.length_flatMap, ← hlengths, (perm.map _).sum_eq]

/-! ### Reading -/

/-- The children of a node, in any order, are put in order again. -/
theorem ofEntries_perm {children order : List (TokenId × CountTrie)} (hperm : order.Perm children)
    (h : Assoc.Ascending children) : ofEntries order = children := by
  have hmap : SortedMap.ofList order = ⟨children, h⟩ :=
    SortedMap.ofList_perm_entries (m := ⟨children, h⟩) hperm
  rw [ofEntries, ← SortedMap.entries_ofList, hmap]

/-- Ids of 32 bits are too few to make a list too long. -/
theorem length_lt_of_ids_lt {children : List (TokenId × CountTrie)} (h : Assoc.Ascending children)
    (hids : ∀ child ∈ children, child.1 < 2 ^ 32) : children.length < 2 ^ 64 := by
  -- Distinct numbers below `2 ^ 32` are at most as many as there are.
  have hnodup : (children.map Prod.fst).Nodup := List.pairwise_map.2 h.distinctKeys
  have hsubset : children.map Prod.fst ⊆ List.range (2 ^ 32) := by
    intro id hid
    obtain ⟨child, hchild, rfl⟩ := List.mem_map.1 hid
    exact List.mem_range.2 (hids child hchild)
  have hle := hnodup.length_le_of_subset hsubset
  rw [List.length_map, List.length_range] at hle
  omega

/-- Every listing of a trie is read back. -/
theorem Listing.reads {trie listed : CountTrie} (h : Listing trie listed)
    (hrepresentable : trie.Representable) {depth : Nat} (hdepth : listed.write.length ≤ depth) :
    Reads (read depth) listed.write trie := by
  -- Along the listing, as it is what was written. The depth goes down with every node, and so does
  -- the number of bytes that are left for the children.
  induction listed using CountTrie.induction generalizing trie depth with
  | node count listed ih =>
    cases h with
    | @node _ children order _ perm below =>
      cases hrepresentable with
      | node count_lt ascending ids_lt below_representable =>
        cases depth with
        | zero =>
          have hpos := length_writeVarint_pos count
          rw [write_node, List.length_append] at hdepth
          omega
        | succ depth =>
          have hchildren : List.Forall₂ (Reads (pair word32 (read depth)))
              (listed.map writeChild) order := by
            rw [List.forall₂_map_left_iff]
            refine (forall₂_of_mem below.forall₂ ?_).flip
            intro child hchild child' hchild' hlisted
            have hmem := perm.mem_iff.1 hchild
            have hlt := length_write_lt count hchild'
            have hid : Reads word32 (writeVarint child'.1) child.1 := by
              rw [← hlisted.1]
              exact reads_varint (by decide) (ids_lt child hmem)
            exact reads_pair hid
              (ih child' hchild' hlisted.2 (below_representable child hmem) (by omega))
          have hlength : order.length < 2 ^ 64 := by
            rw [perm.length_eq]
            exact length_lt_of_ids_lt ascending ids_lt
          have hlist := reads_list hchildren hlength
          rw [below.forall₂.length_eq, ← List.flatMap_def, ← writeList] at hlist
          rw [write_node]
          refine (reads_varint (by decide) count_lt).bind (hlist.bind_pure ?_)
          rw [ofEntries_perm perm ascending]

/-! ### What reading gives -/

/-- A trie that is read has numbers that fit, and what stands behind it is left. -/
theorem delimited_read (depth : Nat) : Delimited (read depth) Representable := by
  induction depth with
  | zero => exact .failure
  | succ depth ih =>
    -- The entries come in as they were written. What is kept of them is a map, so it ascends and
    -- holds none but these entries.
    refine (delimited_varint 64).bind ?_
    intro count hcount
    refine ((delimited_varint 32).pair ih).list.bind ?_
    intro entries hentries
    refine .pure ?_
    have hofEntries : ofEntries entries = (SortedMap.ofList entries).entries :=
      (SortedMap.entries_ofList entries).symm
    rw [hofEntries]
    refine .node hcount (SortedMap.ofList entries).ascending ?_ ?_
    · intro child hchild
      exact (hentries.2 child (SortedMap.mem_of_mem_ofList hchild)).1
    · intro child hchild
      exact (hentries.2 child (SortedMap.mem_of_mem_ofList hchild)).2

/-- A greater depth reads all that a smaller one does. -/
theorem refines_read_succ (depth : Nat) : Refines (read depth) (read (depth + 1)) := by
  induction depth with
  | zero =>
    intro input found hrun
    cases hrun
  | succ depth ih =>
    refine (Refines.refl word64).bind ?_
    intro count
    refine ih.pair.list.bind ?_
    intro entries
    exact Refines.refl _

/-- Reading to a greater depth reads the same where the lesser depth is enough. -/
theorem refines_read {depth depth' : Nat} (h : depth ≤ depth') :
    Refines (read depth) (read depth') := by
  induction h with
  | refl => exact Refines.refl _
  | step _ ih =>
    intro input found hrun
    exact refines_read_succ _ _ _ (ih _ _ hrun)

end NaturalNames.CountTrie
