import NaturalNames.Proofs.CountTrie.Paths

/-!
# `NaturalNames.Proofs.CountTrie.Removed`: how many n-grams are forgotten

`cutoffRare` forgets the n-grams of two tokens or more that are rare (`IsRare`), and the trie is
smaller by their number (`size_eq_add_countP_isRare`). The number that it reports is another one. A
rare child goes with all that is below it and is reported as one, so of the rare n-grams those are
reported whose beginning is not rare itself (`removedByCutoff_eq_countP`).

`reported_removals` puts the two side by side. They agree as long as nothing follows a rare n-gram,
which holds of all windows of two tokens; the window `[1, 2, 3]` alone has two rare n-grams, and one
is reported (`reported_removals_longer_window`).
-/

set_option autoImplicit false

namespace NaturalNames.CountTrie

/-- The sequence has at least `least` ids and was counted at most `threshold` times. -/
def IsRare (trie : CountTrie) (least threshold : Nat) (path : List TokenId) : Prop :=
  least ≤ path.length ∧ trie.count path ≤ threshold

/-- The sequence is rare, and without its last id it is not. -/
def IsFirstRare (trie : CountTrie) (least threshold : Nat) (path : List TokenId) : Prop :=
  IsRare trie least threshold path ∧ ¬ IsRare trie least threshold path.dropLast

instance (trie : CountTrie) (least threshold : Nat) (path : List TokenId) :
    Decidable (IsRare trie least threshold path) :=
  inferInstanceAs (Decidable (_ ∧ _))

instance (trie : CountTrie) (least threshold : Nat) (path : List TokenId) :
    Decidable (IsFirstRare trie least threshold path) :=
  inferInstanceAs (Decidable (_ ∧ _))

variable {trie : CountTrie} {least threshold : Nat}

/-! ### Below a child -/

section

variable (h : WellFormed trie) {child : TokenId × CountTrie} (hchild : child ∈ trie.children)
  {path : List TokenId}

include h hchild

/-- The children of a well-formed trie are well-formed. -/
theorem WellFormed.of_mem_children : WellFormed child.2 := by
  rw [((mem_children_iff h).1 hchild).2]
  exact h.childAt child.1

/-- What a trie counts behind the id of a child is what the child counts. -/
theorem count_cons_of_mem (path : List TokenId) :
    trie.count (child.1 :: path) = child.2.count path := by
  rw [count_cons, ← ((mem_children_iff h).1 hchild).2]

/-- Behind the id of a child the same is rare as in the child, where sequences are shorter by
one. -/
theorem isRare_cons_iff :
    IsRare trie (least + 1) threshold (child.1 :: path) ↔ IsRare child.2 least threshold path := by
  rw [IsRare, IsRare, count_cons_of_mem h hchild, List.length_cons, Nat.add_le_add_iff_right]

/-- A child that is not rare is like a root: the sequences behind it count from one again. -/
theorem isRare_one_cons_iff (hkept : threshold < child.2.total) :
    IsRare trie 1 threshold (child.1 :: path) ↔ IsRare child.2 1 threshold path := by
  rw [isRare_cons_iff h hchild, IsRare, IsRare]
  cases path with
  | nil => simp [count_nil, hkept]
  | cons id path => simp

/-- Below a rare child everything is rare. -/
theorem isRare_one_cons_of_rare (hrare : child.2.total ≤ threshold) :
    IsRare trie 1 threshold (child.1 :: path) := by
  refine ⟨Nat.succ_pos _, ?_⟩
  rw [count_cons_of_mem h hchild]
  exact Nat.le_trans (count_le_total (h.of_mem_children hchild).falling path) hrare

end

/-- Paths are counted child by child: the one that ends at the child, and those that go on. -/
theorem countP_paths (p : List TokenId → Bool) (trie : CountTrie) :
    trie.paths.countP p = (trie.children.map fun child =>
      child.2.paths.countP (fun path => p (child.1 :: path)) +
        if p [child.1] then 1 else 0).sum := by
  rw [paths_eq_flatMap, List.countP_flatMap]
  congr 1
  refine List.map_congr_left fun child _ => ?_
  rw [Function.comp_apply, pathsThrough, List.countP_cons, List.countP_map]
  rfl

/-- Where the same is rare behind an id as in a child, the same is rare first. -/
theorem countP_isFirstRare_cons {child : CountTrie} {id : TokenId} {least' : Nat}
    (hrare : ∀ path,
      IsRare trie least threshold (id :: path) ↔ IsRare child least' threshold path) :
    child.paths.countP (fun path => decide (IsFirstRare trie least threshold (id :: path)))
      = child.paths.countP (IsFirstRare child least' threshold ·) := by
  refine List.countP_congr fun path hpath => ?_
  rw [decide_eq_true_iff, decide_eq_true_iff, IsFirstRare, IsFirstRare,
    List.dropLast_cons_of_ne_nil (ne_nil_of_mem_paths hpath), hrare, hrare]

/-! ### What is reported -/

/-- A child that goes is reported as one node, and a child that stays reports what goes below it. -/
private theorem prunedChildren_eq_sum (threshold : Nat) (children : List (TokenId × CountTrie)) :
    prunedChildren threshold children = (children.map fun child =>
      if threshold < child.2.total then prunedCount threshold child.2 else 1).sum := by
  induction children with
  | nil => rfl
  | cons child rest ih => rw [prunedChildren, ih, List.map_cons, List.sum_cons]

/-- Pruning reports the rare n-grams whose beginning is not rare. -/
theorem prunedCount_eq_countP (h : WellFormed trie) (threshold : Nat) :
    prunedCount threshold trie = trie.paths.countP (IsFirstRare trie 1 threshold ·) := by
  induction h with
  | @node count children ascending counted shared below ih =>
    have hnode : WellFormed (node count children) := .node ascending counted shared below
    rw [prunedCount, prunedChildren_eq_sum, countP_paths]
    congr 1
    refine List.map_congr_left fun child hchild => ?_
    have hroot : ¬ IsRare (node count children) 1 threshold [] := fun hrare =>
      Nat.not_succ_le_zero 0 hrare.1
    by_cases hkept : threshold < child.2.total
    · -- The child stays, and below it the same is rare as in the child itself.
      have hrare : ∀ path, IsRare (node count children) 1 threshold (child.1 :: path)
          ↔ IsRare child.2 1 threshold path := fun path => isRare_one_cons_iff hnode hchild hkept
      have hfirst : ¬ IsFirstRare (node count children) 1 threshold [child.1] := fun hfirst =>
        Nat.not_succ_le_zero 0 ((hrare []).1 hfirst.1).1
      rw [if_pos hkept, ih child hchild, countP_isFirstRare_cons hrare,
        if_neg (mt of_decide_eq_true hfirst), Nat.add_zero]
    · -- The child goes. All that is below it is rare with a beginning that is rare, too.
      have hrare : ∀ path, IsRare (node count children) 1 threshold (child.1 :: path) :=
        fun path => isRare_one_cons_of_rare hnode hchild (Nat.le_of_not_lt hkept)
      have hfirst : IsFirstRare (node count children) 1 threshold [child.1] := ⟨hrare [], hroot⟩
      have hbelow : child.2.paths.countP (fun path =>
          decide (IsFirstRare (node count children) 1 threshold (child.1 :: path))) = 0 := by
        refine List.countP_eq_zero.2 fun path hpath hfirst => ?_
        have hdrop := (of_decide_eq_true hfirst).2
        rw [List.dropLast_cons_of_ne_nil (ne_nil_of_mem_paths hpath)] at hdrop
        exact hdrop (hrare _)
      rw [if_neg hkept, hbelow, if_pos (decide_eq_true hfirst)]

/-- The same of n-grams of two ids or more. -/
theorem removedByCutoff_eq_countP (h : WellFormed trie) (threshold : Nat) :
    removedByCutoff threshold trie = trie.paths.countP (IsFirstRare trie 2 threshold ·) := by
  rw [removedByCutoff]
  split
  next hzero =>
    -- Whatever is a path was counted.
    refine (List.countP_eq_zero.2 fun path hpath hfirst => ?_).symm
    have hpos := ((mem_paths_iff h).1 hpath).2
    have hle := (of_decide_eq_true hfirst).1.2
    omega
  next =>
    -- A single id is not rare, and below it the same is rare as in the child, where rare sequences
    -- begin with one id.
    rw [countP_paths, ← List.foldr_map (f := fun child : TokenId × CountTrie =>
      prunedCount threshold child.2) (g := (· + ·)), ← List.sum]
    congr 1
    refine List.map_congr_left fun child hchild => ?_
    have hsingle : ¬ IsFirstRare trie 2 threshold [child.1] := fun hfirst =>
      absurd hfirst.1.1 (by simp)
    rw [countP_isFirstRare_cons fun path => isRare_cons_iff h hchild,
      ← prunedCount_eq_countP (h.of_mem_children hchild), if_neg (mt of_decide_eq_true hsingle),
      Nat.add_zero]

/-! ### What is forgotten -/

/-- The paths that are left are the ones that were not rare. -/
theorem paths_cutoffRare_perm (h : WellFormed trie) (threshold : Nat) :
    (cutoffRare threshold trie).paths.Perm
      (trie.paths.filter fun path => ¬ IsRare trie 2 threshold path) := by
  refine (List.perm_ext_iff_of_nodup (nodup_paths (h.cutoffRare threshold))
    ((nodup_paths h).filter _)).2 fun path => ?_
  rw [mem_paths_iff (h.cutoffRare threshold), List.mem_filter, mem_paths_iff h,
    count_cutoffRare h, decide_eq_true_iff, IsRare]
  split <;> grind

/-- The trie loses the rare n-grams and nothing else. -/
theorem size_eq_add_countP_isRare (h : WellFormed trie) (threshold : Nat) :
    trie.size = (cutoffRare threshold trie).size
      + trie.paths.countP (IsRare trie 2 threshold ·) := by
  rw [← length_paths, ← length_paths, (paths_cutoffRare_perm h threshold).length_eq,
    ← List.countP_eq_length_filter, Nat.add_comm]
  simpa using List.length_eq_countP_add_countP (IsRare trie 2 threshold ·) (l := trie.paths)

/-- As many n-grams are forgotten as are reported, and those that have a rare beginning. -/
theorem countP_isRare_eq_add (trie : CountTrie) (least threshold : Nat) :
    trie.paths.countP (IsRare trie least threshold ·)
      = trie.paths.countP (IsFirstRare trie least threshold ·) + trie.paths.countP fun path =>
        IsRare trie least threshold path ∧ IsRare trie least threshold path.dropLast := by
  rw [List.countP_eq_countP_filter_add _ _ fun path =>
    decide (¬ IsRare trie least threshold path.dropLast), List.countP_filter, List.countP_filter]
  congr 1
  · refine List.countP_congr fun path _ => ?_
    rw [Bool.and_eq_true, decide_eq_true_iff, decide_eq_true_iff, decide_eq_true_iff, IsFirstRare]
  · refine List.countP_congr fun path _ => ?_
    simp only [Bool.and_eq_true, Bool.not_eq_true', decide_eq_true_eq, decide_eq_false_iff_not,
      not_not]

/-- **A trie may report fewer n-grams than it forgets.** Take a trie of a run with counts that are
words of 64 bits, in which no trie ever counts `2 ^ 64` windows. `cutoffRare` forgets the n-grams of
two ids or more that are not above the threshold, and its size goes down by their number. The number
that it reports is that of the n-grams among them that have no rare beginning. So it is at most the
difference of the sizes, and it is the difference if and only if no n-gram that is forgotten begins
with another one that is forgotten. -/
theorem reported_removals (operations : List Operation) (hfits : Fits operations)
    (t threshold : Nat) :
    let trie := runWords operations t
    {path | path ≠ [] ∧ 0 < trie.count path ∧ IsRare trie 2 threshold path}.encard
        + (cutoffRare threshold trie).size = trie.size ∧
      {path | path ≠ [] ∧ 0 < trie.count path ∧ IsFirstRare trie 2 threshold path}.encard
        = removedByCutoff threshold trie ∧
      removedByCutoff threshold trie + (cutoffRare threshold trie).size ≤ trie.size ∧
      (removedByCutoff threshold trie + (cutoffRare threshold trie).size = trie.size ↔
        ∀ path, 0 < trie.count path → IsRare trie 2 threshold path →
          ¬ IsRare trie 2 threshold path.dropLast) := by
  intro trie
  have h : WellFormed trie := wellFormed_runWords hfits t
  have hsize := size_eq_add_countP_isRare h threshold
  have hreported := removedByCutoff_eq_countP h threshold
  have hsplit := countP_isRare_eq_add trie 2 threshold
  refine ⟨?_, ?_, by omega, ?_⟩
  · rw [encard_counted h, hsize]
    push_cast
    exact add_comm _ _
  · rw [encard_counted h, hreported]
  · -- Nothing is missing if nothing is rare with a rare beginning.
    have hiff : removedByCutoff threshold trie + (cutoffRare threshold trie).size = trie.size ↔
        trie.paths.countP (fun path =>
          IsRare trie 2 threshold path ∧ IsRare trie 2 threshold path.dropLast) = 0 := by
      omega
    rw [hiff, List.countP_eq_zero]
    constructor
    · intro hnone path hpos hrare hbegin
      have hne : path ≠ [] := List.ne_nil_of_length_pos (Nat.lt_of_lt_of_le Nat.two_pos hrare.1)
      exact hnone path ((mem_paths_iff h).2 ⟨hne, hpos⟩) (decide_eq_true ⟨hrare, hbegin⟩)
    · intro hall path hpath hboth
      obtain ⟨hrare, hbegin⟩ := of_decide_eq_true hboth
      exact hall path ((mem_paths_iff h).1 hpath).2 hrare hbegin

/-- Of the windows `[1, 2]`, `[1, 3]` and `[4, 5]` the second one came twice. The other two are
forgotten and reported: nothing follows a rare n-gram. -/
theorem reported_removals_pairs :
    let operations : List Operation := [.add 0 [1, 2], .add 0 [1, 3], .add 0 [4, 5], .add 0 [1, 3]]
    let trie := runWords operations 0
    Fits operations ∧ removedByCutoff 1 trie = 2 ∧ trie.size = 5 ∧ (cutoffRare 1 trie).size = 3 ∧
      ∀ path, 0 < trie.count path → IsRare trie 2 1 path → ¬ IsRare trie 2 1 path.dropLast := by
  intro operations trie
  have hfits : Fits operations := fits_of_length_le (by decide)
  have hreported : removedByCutoff 1 trie = 2 := by decide +kernel
  have hsize : trie.size = 5 := by decide +kernel
  have hleft : (cutoffRare 1 trie).size = 3 := by decide +kernel
  obtain ⟨-, -, -, hiff⟩ := reported_removals operations hfits 0 1
  refine ⟨hfits, hreported, hsize, hleft, hiff.1 ?_⟩
  show removedByCutoff 1 trie + (cutoffRare 1 trie).size = trie.size
  rw [hreported, hleft, hsize]

/-- The window `[1, 2, 3]` was counted once, and both its longer beginnings are forgotten. -/
theorem reported_removals_longer_window :
    let trie := runWords [.add 0 [1, 2, 3]] 0
    removedByCutoff 1 trie = 1 ∧ trie.size = 3 ∧ (cutoffRare 1 trie).size = 1 ∧
      removedByCutoff 1 trie ≠ trie.size - (cutoffRare 1 trie).size := by
  decide +kernel

end NaturalNames.CountTrie
