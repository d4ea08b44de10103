import Mathlib.Data.List.Infix
import NaturalNames.Proofs.CountTrie.WellFormed

/-!
# `NaturalNames.Proofs.CountTrie.Count`: a trie as the function of its counts

Seen from outside a trie is the function `count`. Each theorem says what an operation does to
that function, and none says how the nodes are arranged:

* `count_add`: a window counts for every beginning of it.
* `count_merge`: counts add up.
* `count_cutoffRare`: an n-gram of two ids or more stays if it was counted more often than the
  threshold. The children that are pruned take their subtrees with them, and this is right only
  because counts never grow down a trie (`count_le_of_prefix`).
* `eq_of_count`: a well-formed trie is determined by its counts. So whatever can be said about
  counts alone, that the order of counting does not matter for instance, holds of the tries.
-/

set_option autoImplicit false

namespace NaturalNames.CountTrie

/-- Every window begins with the empty sequence. -/
theorem count_nil (trie : CountTrie) : trie.count [] = trie.total := rfl

/-- The empty trie counted nothing. -/
@[simp]
theorem count_empty (path : List TokenId) : empty.count path = 0 := by
  cases path <;> rfl

/-- What begins with an id is counted in the child of that id. -/
theorem count_cons (trie : CountTrie) (id : TokenId) (path : List TokenId) :
    trie.count (id :: path) = (childAt id trie).count path := by
  cases trie with
  | node n children =>
    show (((Assoc.get? id children).bind (nodeAt? path)).map total).getD 0
      = ((Assoc.get? id children).getD empty).count path
    cases Assoc.get? id children with
    | none => exact (count_empty path).symm
    | some child => rfl

/-! ### Counts never grow down a trie -/

/-- No node counts less than a child of it. -/
inductive Falling : CountTrie → Prop
  | node {count : Nat} {children : List (TokenId × CountTrie)}
      (atMost : ∀ child ∈ children, child.2.total ≤ count)
      (below : ∀ child ∈ children, Falling child.2) :
      Falling (.node count children)

/-- In a well-formed trie no node counts more than its parent. -/
theorem WellFormed.falling {trie : CountTrie} (h : WellFormed trie) : Falling trie := by
  induction h with
  | node ascending counted shared below ih =>
    -- A child is one part of a sum that the node is no less than.
    refine .node (fun child hchild => ?_) ih
    have hle := List.le_sum_of_mem (List.mem_map_of_mem (f := fun c => c.2.total) hchild)
    exact Nat.le_trans hle shared

/-- No child counts more than its parent, and below it the same holds. -/
theorem Falling.childAt {trie : CountTrie} (h : Falling trie) (id : TokenId) :
    (childAt id trie).total ≤ trie.total ∧ Falling (childAt id trie) := by
  cases h with
  | node atMost below =>
    rename_i count children
    show ((Assoc.get? id children).getD empty).total ≤ count
      ∧ Falling ((Assoc.get? id children).getD empty)
    cases hc : Assoc.get? id children with
    | none => exact ⟨Nat.zero_le count, WellFormed.empty.falling⟩
    | some child =>
      obtain ⟨e, he, rfl⟩ := Assoc.exists_mem_of_get? hc
      exact ⟨atMost e he, below e he⟩

/-- No sequence was counted more often than there were windows. -/
theorem count_le_total {trie : CountTrie} (h : Falling trie) (path : List TokenId) :
    trie.count path ≤ trie.total := by
  induction path generalizing trie with
  | nil => exact Nat.le_refl _
  | cons id path ih =>
    rw [count_cons]
    exact Nat.le_trans (ih (h.childAt id).2) (h.childAt id).1

/-- A sequence is counted at most as often as any beginning of it. -/
theorem count_le_of_prefix {trie : CountTrie} (h : Falling trie) {front path : List TokenId}
    (hfront : front <+: path) : trie.count path ≤ trie.count front := by
  -- Along the common beginning, one child deeper with each id. Where it ends the rest of `path` is
  -- below the node that was reached.
  induction front generalizing trie path with
  | nil => exact count_le_total h path
  | cons id front ih =>
    cases path with
    | nil => exact absurd (List.prefix_nil.1 hfront) (by simp)
    | cons id' path =>
      obtain ⟨rfl, htail⟩ := List.cons_prefix_cons.1 hfront
      rw [count_cons, count_cons]
      exact ih (h.childAt id).2 htail

/-! ### The operations -/

/-- A window counts once more for every beginning of it. -/
theorem count_add {trie : CountTrie} (h : WellFormed trie) (window path : List TokenId) :
    (add window trie).count path = trie.count path + if path <+: window then 1 else 0 := by
  induction window generalizing trie path with
  | nil =>
    cases path with
    | nil =>
      rw [count_nil, count_nil, total_add]
      rfl
    | cons id path =>
      -- The empty window leaves all children as they were.
      have hchild : childAt id (add [] trie) = childAt id trie := by
        cases trie
        rfl
      simp [count_cons, hchild]
  | cons id window ih =>
    cases path with
    | nil => simp [count_nil, total_add]
    | cons id' path =>
      rw [count_cons, count_cons, childAt_add h.ascending]
      by_cases hid : id' = id
      · subst hid
        rw [if_pos rfl, ih (h.childAt id')]
        simp
      · simp [hid]

/-- Windows that are counted one after the other. -/
theorem count_foldl_add (windows : List (List TokenId)) {trie : CountTrie} (h : WellFormed trie)
    (path : List TokenId) :
    (windows.foldl (fun trie window => add window trie) trie).count path
      = trie.count path + windows.countP fun window => path <+: window := by
  induction windows generalizing trie with
  | nil => rfl
  | cons window rest ih =>
    rw [List.foldl_cons, ih (h.add window), count_add h, List.countP_cons]
    simp only [decide_eq_true_eq]
    omega

/-- Counting windows one after the other keeps a trie well-formed. -/
theorem WellFormed.foldl_add (windows : List (List TokenId)) {trie : CountTrie}
    (h : WellFormed trie) :
    WellFormed (windows.foldl (fun trie window => CountTrie.add window trie) trie) := by
  induction windows generalizing trie with
  | nil => exact h
  | cons window rest ih => exact ih (h.add window)

/-- Merging adds the counts of every sequence. -/
theorem count_merge {a b : CountTrie} (ha : WellFormed a) (hb : WellFormed b)
    (path : List TokenId) : (merge a b).count path = a.count path + b.count path := by
  induction path generalizing a b with
  | nil => rw [count_nil, total_merge]; rfl
  | cons id path ih =>
    rw [count_cons, count_cons, count_cons, childAt_merge ha.ascending hb.ascending]
    exact ih (ha.childAt id) (hb.childAt id)

/-- Below the root, what is left of a trie are the sequences that were counted often enough. -/
theorem count_prune {trie : CountTrie} (h : WellFormed trie) (threshold : Nat)
    {path : List TokenId} (hpath : path ≠ []) :
    (prune threshold trie).count path
      = if threshold < trie.count path then trie.count path else 0 := by
  induction path generalizing trie with
  | nil => exact absurd rfl hpath
  | cons id path ih =>
    rw [count_cons, count_cons, childAt_prune h.ascending]
    have hchild := h.childAt id
    by_cases hc : threshold < (childAt id trie).total
    · rw [if_pos hc]
      cases path with
      | nil => rw [count_nil, count_nil, total_prune, if_pos hc]
      | cons id' path => exact ih hchild (by simp)
    · -- The child goes. Nothing below it was counted more often than the child itself.
      have hle := count_le_total hchild.falling path
      rw [if_neg hc, count_empty, if_neg (by omega)]

/-- What is left after rare n-grams were forgotten: the total, the counts of single ids, and the
counts above the threshold. -/
theorem count_cutoffRare {trie : CountTrie} (h : WellFormed trie) (threshold : Nat)
    (path : List TokenId) :
    (cutoffRare threshold trie).count path
      = if path.length ≤ 1 ∨ threshold < trie.count path then trie.count path else 0 := by
  by_cases hzero : threshold = 0
  · -- Nothing is forgotten, and what was not counted has count zero anyway.
    have hsame : cutoffRare threshold trie = trie := by
      cases trie
      rw [cutoffRare, if_pos hzero]
    rw [hsame]
    split <;> omega
  · cases path with
    | nil => rw [count_nil, count_nil, total_cutoffRare, if_pos (by simp)]
    | cons id path =>
      rw [count_cons, count_cons, childAt_cutoffRare hzero]
      cases path with
      | nil => rw [count_nil, count_nil, total_prune, if_pos (by simp)]
      | cons id' path =>
        rw [count_prune (h.childAt id) threshold (by simp)]
        simp

/-! ### A trie is determined by its counts -/

/-- A child is there exactly if its id was counted. -/
theorem get?_children_eq {trie : CountTrie} (h : WellFormed trie) (id : TokenId) :
    Assoc.get? id trie.children
      = if 0 < (childAt id trie).total then some (childAt id trie) else none := by
  cases h with
  | node ascending counted shared below =>
    rename_i n children
    show Assoc.get? id children = if 0 < ((Assoc.get? id children).getD empty).total then
      some ((Assoc.get? id children).getD empty) else none
    cases hc : Assoc.get? id children with
    | none => rfl
    | some child =>
      obtain ⟨e, he, rfl⟩ := Assoc.exists_mem_of_get? hc
      exact (if_pos (counted e he)).symm

/-- Below an id that was not counted there is nothing. -/
private theorem childAt_eq_empty {trie : CountTrie} (h : WellFormed trie) {id : TokenId}
    (hzero : (childAt id trie).total = 0) : childAt id trie = empty := by
  have hnone := get?_children_eq h id
  rw [hzero, if_neg (Nat.lt_irrefl 0)] at hnone
  rw [childAt, hnone]
  rfl

/-- Two well-formed tries with the same counts are the same trie. -/
theorem eq_of_count {a b : CountTrie} (ha : WellFormed a) (hb : WellFormed b)
    (h : ∀ path, a.count path = b.count path) : a = b := by
  -- Along the first trie. The counts do not say how the children are arranged, but as both lists
  -- of children ascend it is enough that they give the same child for every id.
  induction a using induction generalizing b with
  | node n children ih =>
    cases b with
    | node m children' =>
      -- Equal counts below each id, so by induction equal tries below each id.
      have hcount : ∀ id path, (childAt id (node n children)).count path
          = (childAt id (node m children')).count path := by
        intro id path
        rw [← count_cons, ← count_cons]
        exact h (id :: path)
      have hchild : ∀ id, childAt id (node n children) = childAt id (node m children') := by
        intro id
        by_cases hzero : (childAt id (node n children)).total = 0
        · have hzero' : (childAt id (node m children')).total = 0 := (hcount id []).symm.trans hzero
          rw [childAt_eq_empty ha hzero, childAt_eq_empty hb hzero']
        · have hsome := get?_children_eq ha id
          rw [if_pos (Nat.pos_of_ne_zero hzero)] at hsome
          obtain ⟨e, he, heq⟩ := Assoc.exists_mem_of_get? hsome
          have hwell := ha.childAt id
          rw [← heq] at hwell ⊢
          exact ih e he hwell (hb.childAt id) fun path => heq ▸ hcount id path
      have hchildren : children = children' := by
        refine Assoc.eq_of_get? ha.ascending hb.ascending ?_
        intro id
        have hleft := get?_children_eq ha id
        rw [hchild id, ← get?_children_eq hb id] at hleft
        exact hleft
      have htotal : n = m := h []
      rw [htotal, hchildren]

end NaturalNames.CountTrie
