import Mathlib.Data.Set.Card
import NaturalNames.Proofs.CountTrie.Refinement

/-!
# `NaturalNames.Proofs.CountTrie.Paths`: the n-grams that a trie holds

`paths` lists the sequences of ids that lead to a node below the root. In a well-formed trie these
are the n-grams that were counted (`mem_paths_iff`), none is listed twice (`nodup_paths`), and there
are as many as the trie has nodes (`length_paths`). So the size of a trie is a number of n-grams,
whatever the nodes are.

`continuations` gives the ids behind a sequence. They are listed in ascending order, each with the
count of the longer sequence (`mem_continuations_iff`), and their counts are part of the count of
the sequence (`sum_continuations_le`).

`determined_by_counts` says both of the tries that a program makes, with the fact that they are
equal if their counts are. The counts are words of 64 bits there, and none of them overflows: a node
whose count came round to zero would still be a node.
-/

set_option autoImplicit false

namespace NaturalNames.CountTrie

/-! ### The n-grams of a trie -/

mutual

/-- The sequences of ids that lead to a node below the root. -/
def paths : CountTrie → List (List TokenId)
  | node _ children => pathsOfChildren children

/-- The sequences through a list of children, those of the first child first. -/
def pathsOfChildren : List (TokenId × CountTrie) → List (List TokenId)
  | [] => []
  | (id, child) :: rest => ([id] :: (paths child).map (id :: ·)) ++ pathsOfChildren rest

end

/-- The paths that begin with a child. -/
def pathsThrough (child : TokenId × CountTrie) : List (List TokenId) :=
  [child.1] :: child.2.paths.map (child.1 :: ·)

/-- The sequences of a list of children are those through each child. -/
private theorem pathsOfChildren_eq_flatMap (children : List (TokenId × CountTrie)) :
    pathsOfChildren children = children.flatMap pathsThrough := by
  induction children with
  | nil => rfl
  | cons child rest ih =>
    rw [pathsOfChildren, ih]
    rfl

/-- The sequences of a trie go through its children. -/
theorem paths_eq_flatMap (trie : CountTrie) : trie.paths = trie.children.flatMap pathsThrough := by
  cases trie
  exact pathsOfChildren_eq_flatMap _

/-- Each child counts as a node, and so does all that is below it. -/
private theorem sizeChildren_eq_sum (children : List (TokenId × CountTrie)) :
    sizeChildren children = (children.map fun child => 1 + child.2.size).sum := by
  induction children with
  | nil => rfl
  | cons child rest ih => rw [sizeChildren, ih, List.map_cons, List.sum_cons]

/-- Each path leads to a node of its own. -/
theorem length_paths (trie : CountTrie) : trie.paths.length = trie.size := by
  induction trie using CountTrie.induction with
  | node count children ih =>
    rw [paths_eq_flatMap, List.length_flatMap, size, sizeChildren_eq_sum]
    congr 1
    refine List.map_congr_left fun child hchild => ?_
    rw [pathsThrough, List.length_cons, List.length_map, ih child hchild, Nat.add_comm]

/-- A sequence through a child is its id, by itself or in front of a sequence of the child. -/
theorem cons_mem_pathsThrough_iff {child : TokenId × CountTrie} {id : TokenId}
    {path : List TokenId} :
    id :: path ∈ pathsThrough child ↔ child.1 = id ∧ (path = [] ∨ path ∈ child.2.paths) := by
  rw [pathsThrough, List.mem_cons, List.mem_map]
  constructor
  · rintro (heq | ⟨path', hpath, heq⟩)
    · obtain ⟨rfl, rfl⟩ := List.cons.inj heq
      exact ⟨rfl, .inl rfl⟩
    · obtain ⟨rfl, rfl⟩ := List.cons.inj heq
      exact ⟨rfl, .inr hpath⟩
  · rintro ⟨rfl, rfl | hpath⟩
    · exact .inl rfl
    · exact .inr ⟨path, hpath, rfl⟩

/-- The empty sequence is that of the root and not listed. -/
theorem ne_nil_of_mem_paths {trie : CountTrie} {path : List TokenId} (h : path ∈ trie.paths) :
    path ≠ [] := by
  rw [paths_eq_flatMap, List.mem_flatMap] at h
  obtain ⟨child, -, hpath⟩ := h
  rintro rfl
  simp [pathsThrough] at hpath

variable {trie : CountTrie}

/-- The children are the tries below the ids that were counted. -/
theorem mem_children_iff (h : WellFormed trie) {id : TokenId} {child : CountTrie} :
    (id, child) ∈ trie.children ↔ 0 < (childAt id trie).total ∧ child = childAt id trie := by
  rw [← Assoc.get?_eq_some_iff h.ascending, get?_children_eq h]
  split
  next hpos => simp [hpos, eq_comm]
  next hzero => simp [hzero]

/-- A path goes through the child with its first id, which is there if the id was counted. -/
theorem cons_mem_paths_iff (h : WellFormed trie) {id : TokenId} {path : List TokenId} :
    id :: path ∈ trie.paths ↔
      0 < (childAt id trie).total ∧ (path = [] ∨ path ∈ (childAt id trie).paths) := by
  rw [paths_eq_flatMap, List.mem_flatMap]
  constructor
  · rintro ⟨⟨id', child⟩, hchild, hpath⟩
    obtain ⟨rfl, hrest⟩ := cons_mem_pathsThrough_iff.1 hpath
    obtain ⟨hpos, heq⟩ := (mem_children_iff h).1 hchild
    exact ⟨hpos, heq ▸ hrest⟩
  · rintro ⟨hpos, hrest⟩
    exact ⟨_, (mem_children_iff h).2 ⟨hpos, rfl⟩, cons_mem_pathsThrough_iff.2 ⟨rfl, hrest⟩⟩

/-- The paths are the n-grams that were counted. -/
theorem mem_paths_iff (h : WellFormed trie) {path : List TokenId} :
    path ∈ trie.paths ↔ path ≠ [] ∧ 0 < trie.count path := by
  induction path generalizing trie with
  | nil => exact ⟨fun hmem => absurd rfl (ne_nil_of_mem_paths hmem), fun hne => absurd rfl hne.1⟩
  | cons id path ih =>
    have hchild := h.childAt id
    rw [cons_mem_paths_iff h, ih hchild, count_cons]
    -- What is below the child was not counted more often than the child.
    have hle := count_le_total hchild.falling path
    cases path with
    | nil => simp [count_nil]
    | cons id' path =>
      simp only [reduceCtorEq, false_or, ne_eq, not_false_eq_true, true_and]
      exact ⟨fun hpos => hpos.2, fun hpos => ⟨Nat.lt_of_lt_of_le hpos hle, hpos⟩⟩

/-- A well-formed trie lists each sequence once, since its children have distinct ids. -/
theorem nodup_paths (h : WellFormed trie) : trie.paths.Nodup := by
  induction h with
  | @node count children ascending counted shared below ih =>
    rw [paths_eq_flatMap, List.nodup_flatMap]
    constructor
    · intro child hchild
      have hnil : [child.1] ∉ child.2.paths.map (child.1 :: ·) := by
        intro hmem
        obtain ⟨path, hpath, heq⟩ := List.mem_map.1 hmem
        exact ne_nil_of_mem_paths hpath (List.cons.inj heq).2
      exact List.nodup_cons.2 ⟨hnil, (ih child hchild).map (List.cons_injective)⟩
    · -- Paths through different children begin with different ids.
      refine ascending.distinctKeys.imp fun {a b} hne path ha hb => ?_
      cases path with
      | nil => simp [pathsThrough] at ha
      | cons id path =>
        exact hne ((cons_mem_pathsThrough_iff.1 ha).1.trans (cons_mem_pathsThrough_iff.1 hb).1.symm)

/-- Of the n-grams that were counted, those with a property are as many as the paths with it. -/
theorem encard_counted (h : WellFormed trie) (p : List TokenId → Prop) [DecidablePred p] :
    {path | path ≠ [] ∧ 0 < trie.count path ∧ p path}.encard = trie.paths.countP (p ·) := by
  have hset : {path | path ≠ [] ∧ 0 < trie.count path ∧ p path}
      = ((trie.paths.filter (p ·)).toFinset : Set (List TokenId)) := by
    ext path
    simp [mem_paths_iff h, and_assoc]
  rw [hset, Set.encard_coe_eq_coe_finsetCard,
    List.toFinset_card_of_nodup ((nodup_paths h).filter _), List.countP_eq_length_filter]

/-- A trie is empty if it has no nodes below the root. -/
theorem isEmpty_iff (trie : CountTrie) : trie.isEmpty = true ↔ trie.size = 0 := by
  cases trie with
  | node count children =>
    rw [isEmpty, size, sizeChildren_eq_sum]
    cases children with
    | nil => exact iff_of_true rfl rfl
    | cons child rest => simp [children]

/-! ### What comes behind a sequence -/

/-- Nothing went on in the empty trie. -/
theorem continuations_empty (path : List TokenId) : empty.continuations path = [] := by
  cases path <;> rfl

/-- The empty sequence went on with the ids of the children. -/
theorem continuations_nil (trie : CountTrie) :
    trie.continuations [] = trie.children.map fun child => (child.1, child.2.total) := rfl

/-- A sequence went on as its rest did in the child of its first id. -/
theorem continuations_cons (trie : CountTrie) (id : TokenId) (path : List TokenId) :
    trie.continuations (id :: path) = (childAt id trie).continuations path := by
  cases trie with
  | node count children =>
    rw [continuations, nodeAt?]
    show _ = ((Assoc.get? id children).getD empty).continuations path
    cases Assoc.get? id children with
    | none => exact (continuations_empty path).symm
    | some child => rfl

/-- The ids that went on are listed in ascending order. -/
theorem ascending_continuations (h : WellFormed trie) (path : List TokenId) :
    Assoc.Ascending (trie.continuations path) := by
  induction path generalizing trie with
  | nil => exact h.ascending.mapValues total
  | cons id path ih =>
    rw [continuations_cons]
    exact ih (h.childAt id)

/-- An id goes on from a sequence if the longer sequence was counted, and has the count of it. -/
theorem mem_continuations_iff (h : WellFormed trie) {path : List TokenId} {id : TokenId} {n : Nat} :
    (id, n) ∈ trie.continuations path ↔ n = trie.count (path ++ [id]) ∧ 0 < n := by
  induction path generalizing trie with
  | nil =>
    rw [continuations_nil, List.mem_map, List.nil_append, count_cons, count_nil]
    constructor
    · rintro ⟨⟨id', child⟩, hchild, heq⟩
      cases heq
      obtain ⟨hpos, rfl⟩ := (mem_children_iff h).1 hchild
      exact ⟨rfl, hpos⟩
    · rintro ⟨rfl, hpos⟩
      exact ⟨_, (mem_children_iff h).2 ⟨hpos, rfl⟩, rfl⟩
  | cons id' path ih => rw [continuations_cons, ih (h.childAt id'), List.cons_append, count_cons]

/-- A sequence did not go on more often than it was counted. -/
theorem sum_continuations_le (h : WellFormed trie) (path : List TokenId) :
    ((trie.continuations path).map Prod.snd).sum ≤ trie.count path := by
  induction path generalizing trie with
  | nil =>
    cases h with
    | node ascending counted shared below =>
      rw [continuations_nil, List.map_map]
      exact shared
  | cons id path ih =>
    rw [continuations_cons, count_cons]
    exact ih (h.childAt id)

/-! ### Tries and their counts -/

/-- **A trie that a program makes is determined by its counts.** Take two runs with counts that are
words of 64 bits, in which no trie ever counts `2 ^ 64` windows, and a trie of each. The two are
equal if and only if they count the same for every sequence of ids. The size of a trie is the number
of n-grams that were counted, it is empty if it has size zero, and behind a sequence stand exactly
the ids with which it was counted, each once and with the count of the longer sequence. Taken
together these were not counted more often than the sequence. -/
theorem determined_by_counts (operations operations' : List Operation) (hfits : Fits operations)
    (hfits' : Fits operations') (t u : Nat) :
    (runWords operations t = runWords operations' u ↔
      ∀ path, (runWords operations t).count path = (runWords operations' u).count path) ∧
    {path | path ≠ [] ∧ 0 < (runWords operations t).count path}.encard
      = (runWords operations t).size ∧
    ((runWords operations t).isEmpty = true ↔ (runWords operations t).size = 0) ∧
    ∀ path,
      (∀ id n, (id, n) ∈ (runWords operations t).continuations path ↔
        n = (runWords operations t).count (path ++ [id]) ∧ 0 < n) ∧
      (((runWords operations t).continuations path).map Prod.fst).Nodup ∧
      (((runWords operations t).continuations path).map Prod.snd).sum
        ≤ (runWords operations t).count path := by
  have htrie := wellFormed_runWords hfits t
  have htrie' := wellFormed_runWords hfits' u
  refine ⟨⟨fun heq path => by rw [heq], eq_of_count htrie htrie'⟩, ?_, isEmpty_iff _, ?_⟩
  · simpa [length_paths] using encard_counted htrie fun _ => True
  · intro path
    refine ⟨fun id n => mem_continuations_iff htrie, ?_, sum_continuations_le htrie path⟩
    exact List.pairwise_map.2 (ascending_continuations htrie path).distinctKeys

/-- Pruned away, `[1, 3]` leaves no node behind: the trie is that of the other windows, shortened.
The two count alike, for they are equal. -/
theorem determined_by_counts_pruned :
    let operations : List Operation :=
      [.add 0 [1, 2], .add 0 [1, 2], .add 0 [1, 3], .cutoffRare 0 1]
    let operations' : List Operation :=
      [.add 0 [1, 2], .add 1 [1], .add 1 [1, 2], .merge 0 1]
    Fits operations ∧ Fits operations' ∧ runWords operations 0 = runWords operations' 0 ∧
      (∀ path, (runWords operations 0).count path = (runWords operations' 0).count path) ∧
      (runWords operations 0).continuations [1] = [(2, 2)] ∧
      {path | path ≠ [] ∧ 0 < (runWords operations 0).count path}.encard = 2 := by
  intro operations operations'
  have hfits : Fits operations := fits_of_length_le (by decide)
  have hfits' : Fits operations' := fits_of_length_le (by decide)
  have heq : runWords operations 0 = runWords operations' 0 := by decide +kernel
  have hsize : (runWords operations 0).size = 2 := by decide +kernel
  obtain ⟨hiff, hcounted, -, -⟩ := determined_by_counts operations operations' hfits hfits' 0 0
  refine ⟨hfits, hfits', heq, hiff.1 heq, by decide +kernel, ?_⟩
  rw [hcounted, hsize]
  rfl

end NaturalNames.CountTrie
