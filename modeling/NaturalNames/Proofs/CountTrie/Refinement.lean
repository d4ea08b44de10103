import Mathlib.Logic.Function.Basic
import NaturalNames.Proofs.CountTrie.Words

/-!
# `NaturalNames.Proofs.CountTrie.Refinement`: tries are functions from sequences to counts

A program that works with several tries makes new ones, counts windows, merges one trie into
another or into itself, and forgets rare n-grams, in any order. `Operation` lists what it can do
to tries that are told apart by number, and each operation is given twice: `apply` does it to
tries, `applyCounts` to the functions that the tries stand for, where no node is left to be seen.

`Represents` is the relation between the two. An operation keeps it (`Represents.apply`), so every
run does (`represents_run`). Pruning is where this could fail: it drops a node with all that is
below it, and this is the pruning of a function only as long as nothing below a node was counted
more often. So `Represents` carries well-formedness along.

A machine does the same with counts of 64 bits (`runWords`). As long as no trie counts `2 ^ 64`
windows (`Fits`) it comes to the same tries (`runWords_eq_run`). That is so for a while in any case:
an operation does no more than double a count, so sixty-four of them cannot leave the words
(`fits_of_length_le`).

A well-formed trie is determined by its counts. What holds of sums of functions therefore holds of
merged tries, node by node: `merge_comm`, `merge_assoc`, `empty_merge` and `ofWindows_append`.
-/

set_option autoImplicit false

namespace NaturalNames.CountTrie

/-! ### Merging as addition -/

section

variable {a b c : CountTrie}

/-- It does not matter which of two tries is merged into the other. -/
theorem merge_comm (ha : WellFormed a) (hb : WellFormed b) : merge a b = merge b a := by
  refine eq_of_count (ha.merge hb) (hb.merge ha) ?_
  intro path
  rw [count_merge ha hb, count_merge hb ha, Nat.add_comm]

/-- It does not matter in which order three tries are merged. -/
theorem merge_assoc (ha : WellFormed a) (hb : WellFormed b) (hc : WellFormed c) :
    merge (merge a b) c = merge a (merge b c) := by
  refine eq_of_count ((ha.merge hb).merge hc) (ha.merge (hb.merge hc)) ?_
  intro path
  rw [count_merge (ha.merge hb) hc, count_merge ha hb, count_merge ha (hb.merge hc),
    count_merge hb hc, Nat.add_assoc]

/-- Merging into the empty trie gives the other one. -/
theorem empty_merge (ha : WellFormed a) : merge empty a = a := by
  rw [merge_comm .empty ha, merge_empty]

/-- The trie of some windows. -/
def ofWindows (windows : List (List TokenId)) : CountTrie :=
  windows.foldl (fun trie window => add window trie) empty

/-- A trie of windows is well-formed. -/
theorem wellFormed_ofWindows (windows : List (List TokenId)) : WellFormed (ofWindows windows) :=
  WellFormed.empty.foldl_add windows

/-- Windows can be counted in parts. -/
theorem ofWindows_append (front back : List (List TokenId)) :
    ofWindows (front ++ back) = merge (ofWindows front) (ofWindows back) := by
  have hfront := wellFormed_ofWindows front
  have hback := wellFormed_ofWindows back
  refine eq_of_count (wellFormed_ofWindows _) (hfront.merge hback) ?_
  intro path
  rw [count_merge hfront hback, ofWindows, ofWindows, ofWindows, count_foldl_add _ .empty,
    count_foldl_add _ .empty, count_foldl_add _ .empty, List.countP_append, count_empty]
  omega

end

/-! ### Operations -/

/-- What a program does to tries that are told apart by number. -/
inductive Operation where
  | new (t : Nat)
  | add (t : Nat) (window : List TokenId)
  /-- Adds a copy of trie `source` to trie `t`, which may be the same one. -/
  | merge (t source : Nat)
  | cutoffRare (t threshold : Nat)

namespace Operation

/-- What an operation does to the tries. -/
def apply (tries : Nat → CountTrie) : Operation → Nat → CountTrie
  | new t => Function.update tries t empty
  | add t window => Function.update tries t ((tries t).add window)
  | merge t source => Function.update tries t ((tries t).merge (tries source))
  | cutoffRare t threshold => Function.update tries t ((tries t).cutoffRare threshold)

/-- What an operation does to the functions that the tries stand for. -/
def applyCounts (counts : Nat → List TokenId → Nat) : Operation → Nat → List TokenId → Nat
  | new t => Function.update counts t fun _ => 0
  | add t window => Function.update counts t fun path =>
      counts t path + if path <+: window then 1 else 0
  | merge t source => Function.update counts t fun path => counts t path + counts source path
  | cutoffRare t threshold => Function.update counts t fun path =>
      if threshold = 0 ∨ path.length ≤ 1 ∨ threshold < counts t path then counts t path else 0

end Operation

/-- The tries after a run that starts with empty ones. -/
def run (operations : List Operation) : Nat → CountTrie :=
  operations.foldl Operation.apply fun _ => empty

/-- The functions after the same run. -/
def runCounts (operations : List Operation) : Nat → List TokenId → Nat :=
  operations.foldl Operation.applyCounts fun _ _ => 0

/-- The tries after the same run where counts are words of 64 bits. -/
def runWords (operations : List Operation) : Nat → CountTrie :=
  operations.foldl (fun tries operation t => (operation.apply tries t).wrap) fun _ => empty

/-- At no time of the run does a trie count as many windows as a word cannot hold. -/
def Fits (operations : List Operation) : Prop :=
  ∀ front, front <+: operations → ∀ t, runCounts front t [] < 2 ^ 64

/-! ### Refinement -/

/-- Every trie is well-formed and counts what its function says. -/
structure Represents (tries : Nat → CountTrie) (counts : Nat → List TokenId → Nat) : Prop where
  wellFormed : ∀ t, WellFormed (tries t)
  count_eq : ∀ t path, (tries t).count path = counts t path

namespace Represents

variable {tries : Nat → CountTrie} {counts : Nat → List TokenId → Nat}

/-- One trie and its function change, and the others stay as they are. -/
theorem update (h : Represents tries counts) (t : Nat) {trie : CountTrie} {f : List TokenId → Nat}
    (htrie : WellFormed trie) (hf : ∀ path, trie.count path = f path) :
    Represents (Function.update tries t trie) (Function.update counts t f) := by
  constructor
  · intro u
    by_cases hu : u = t
    · rw [hu, Function.update_self]
      exact htrie
    · rw [Function.update_of_ne hu]
      exact h.wellFormed u
  · intro u path
    by_cases hu : u = t
    · rw [hu, Function.update_self, Function.update_self]
      exact hf path
    · rw [Function.update_of_ne hu, Function.update_of_ne hu]
      exact h.count_eq u path

/-- One operation keeps all tries at the counts that they stand for. -/
theorem apply (h : Represents tries counts) (operation : Operation) :
    Represents (operation.apply tries) (operation.applyCounts counts) := by
  cases operation with
  | new t => exact h.update t .empty count_empty
  | add t window =>
    refine h.update t ((h.wellFormed t).add window) ?_
    intro path
    rw [count_add (h.wellFormed t), h.count_eq]
  | merge t source =>
    refine h.update t ((h.wellFormed t).merge (h.wellFormed source)) ?_
    intro path
    rw [count_merge (h.wellFormed t) (h.wellFormed source), h.count_eq, h.count_eq]
  | cutoffRare t threshold =>
    refine h.update t ((h.wellFormed t).cutoffRare threshold) ?_
    intro path
    rw [count_cutoffRare (h.wellFormed t), h.count_eq]
    -- With threshold zero only what was not counted is not above it.
    grind

/-- The total is the count of the empty sequence. -/
theorem total_eq (h : Represents tries counts) (t : Nat) : (tries t).total = counts t [] := by
  rw [← count_nil]
  exact h.count_eq t []

end Represents

/-- A run of operations keeps all tries at the counts that they stand for. -/
theorem represents_run (operations : List Operation) :
    Represents (run operations) (runCounts operations) := by
  have hempty : Represents (fun _ => empty) fun _ _ => 0 := ⟨fun _ => .empty, fun _ => count_empty⟩
  -- The tries and functions that the run starts with are left general.
  suffices h : ∀ {tries counts}, Represents tries counts →
      Represents (operations.foldl Operation.apply tries)
        (operations.foldl Operation.applyCounts counts) from h hempty
  induction operations with
  | nil => exact fun h => h
  | cons operation rest ih => exact fun h => ih (h.apply operation)

/-! ### Words -/

/-- An operation doubles a count at most, or makes one more of it. -/
theorem Operation.applyCounts_le {counts : Nat → List TokenId → Nat} {bound : Nat}
    (h : ∀ t path, counts t path ≤ bound) (operation : Operation) (t : Nat) (path : List TokenId) :
    operation.applyCounts counts t path ≤ 2 * bound + 1 := by
  have hold := h t path
  -- Merging a trie into itself doubles a count, and no other operation adds more than one.
  cases operation with
  | new u =>
    rw [applyCounts, Function.update_apply]
    split
    next => exact Nat.zero_le _
    next => omega
  | add u window =>
    rw [applyCounts, Function.update_apply]
    split
    next hu =>
      subst hu
      dsimp only
      split <;> omega
    next => omega
  | merge u source =>
    have hsource := h source path
    rw [applyCounts, Function.update_apply]
    split
    next hu =>
      subst hu
      dsimp only
      omega
    next => omega
  | cutoffRare u threshold =>
    rw [applyCounts, Function.update_apply]
    split
    next hu =>
      subst hu
      dsimp only
      split <;> omega
    next => omega

/-- So it takes more than `n` operations to count to `2 ^ n`. -/
theorem runCounts_lt (operations : List Operation) (t : Nat) (path : List TokenId) :
    runCounts operations t path < 2 ^ operations.length := by
  -- The induction takes the last operation off, since the bound is one on what was there before it.
  induction operations using List.reverseRecOn generalizing t path with
  | nil => exact Nat.zero_lt_one
  | append_singleton front operation ih =>
    have hrun : runCounts (front ++ [operation]) = operation.applyCounts (runCounts front) :=
      List.foldl_concat _ _ _ _
    have hpos : 0 < 2 ^ front.length := Nat.two_pow_pos _
    have hle := operation.applyCounts_le (fun t path => Nat.le_sub_one_of_lt (ih t path)) t path
    rw [hrun, List.length_append, List.length_singleton, Nat.pow_succ]
    omega

/-- Short runs fit. -/
theorem fits_of_length_le {operations : List Operation} (h : operations.length ≤ 64) :
    Fits operations := by
  intro front hfront t
  calc runCounts front t [] < 2 ^ front.length := runCounts_lt front t []
    _ ≤ 2 ^ 64 := Nat.pow_le_pow_right Nat.two_pos (Nat.le_trans hfront.length_le h)

/-- A run that fits makes the same tries in words. -/
theorem runWords_eq_run {operations : List Operation} (h : Fits operations) :
    runWords operations = run operations := by
  induction operations using List.reverseRecOn with
  | nil => rfl
  | append_singleton front operation ih =>
    -- The bound is one for every first part of the run, so before the last operation the words were
    -- the counts already.
    have hrepresents := represents_run (front ++ [operation])
    have hfront : runWords front = run front := ih fun first hfirst =>
      h first (hfirst.trans (List.prefix_append _ _))
    have hwords : runWords (front ++ [operation])
        = fun t => (operation.apply (runWords front) t).wrap := List.foldl_concat _ _ _ _
    have hrun : run (front ++ [operation]) = operation.apply (run front) :=
      List.foldl_concat _ _ _ _
    funext t
    rw [hwords, hfront, ← hrun]
    refine wrap_eq_self (hrepresents.wellFormed t).falling ?_
    rw [hrepresents.total_eq]
    exact h _ List.prefix_rfl t

/-- The tries of a run that fits are well-formed. -/
theorem wellFormed_runWords {operations : List Operation} (h : Fits operations) (t : Nat) :
    WellFormed (runWords operations t) := by
  rw [runWords_eq_run h]
  exact (represents_run operations).wellFormed t

/-- The trie of some windows, with counts that are words. -/
def ofWindowsWords (windows : List (List TokenId)) : CountTrie :=
  windows.foldl (fun trie window => (add window trie).wrap) empty

/-- As many windows are counted as there are. -/
theorem total_ofWindows (windows : List (List TokenId)) :
    (ofWindows windows).total = windows.length := by
  rw [← count_nil, ofWindows, count_foldl_add _ .empty, count_empty]
  simp

/-- Fewer than `2 ^ 64` windows make the same trie in words. -/
theorem ofWindowsWords_eq_ofWindows {windows : List (List TokenId)}
    (h : windows.length < 2 ^ 64) : ofWindowsWords windows = ofWindows windows := by
  induction windows using List.reverseRecOn with
  | nil => rfl
  | append_singleton front window ih =>
    -- The last window is counted in a trie that is the same in words, and the total still is one.
    have hwords : ofWindowsWords (front ++ [window]) = (add window (ofWindowsWords front)).wrap :=
      List.foldl_concat _ _ _ _
    have hadd : ofWindows (front ++ [window]) = add window (ofWindows front) :=
      List.foldl_concat _ _ _ _
    have hlt : front.length < 2 ^ 64 := by
      rw [List.length_append] at h
      omega
    rw [hwords, ih hlt, ← hadd]
    exact wrap_eq_self (wellFormed_ofWindows _).falling (by rwa [total_ofWindows])

/-- **A trie is the function of its counts.** Take a sequence of operations on any number of tries,
with counts that are words of 64 bits, in which no trie ever counts `2 ^ 64` windows. Afterwards a
trie counts for each sequence of ids what the operations make of a plain function: a window adds one
to each of its beginnings, merging adds two functions, and forgetting rare n-grams sets to zero what
has at least two ids and is not above the threshold. The total is the count of the empty sequence,
and no other count exceeds it.

Merging tries that were made in such a way is commutative, with the empty trie as its neutral
element. As long as the totals add up to less than `2 ^ 64` it is associative, and fewer windows
than that which are counted in two parts and merged give the trie of all of them. These are
equations between tries and not only between their counts. -/
theorem tries_refine_counts (operations : List Operation) (hfits : Fits operations) :
    (∀ t path, (runWords operations t).count path = runCounts operations t path) ∧
    (∀ t, (runWords operations t).total = runCounts operations t []) ∧
    (∀ t path, (runWords operations t).count path ≤ (runWords operations t).total) ∧
    (∀ t u, mergeWords (runWords operations t) (runWords operations u)
      = mergeWords (runWords operations u) (runWords operations t)) ∧
    (∀ t u v, (runWords operations t).total + (runWords operations u).total
        + (runWords operations v).total < 2 ^ 64 →
      mergeWords (mergeWords (runWords operations t) (runWords operations u))
          (runWords operations v)
        = mergeWords (runWords operations t)
          (mergeWords (runWords operations u) (runWords operations v))) ∧
    (∀ t, mergeWords (runWords operations t) empty = runWords operations t ∧
      mergeWords empty (runWords operations t) = runWords operations t) ∧
    ∀ front back, (front ++ back).length < 2 ^ 64 →
      ofWindowsWords (front ++ back)
        = mergeWords (ofWindowsWords front) (ofWindowsWords back) := by
  have hrun := represents_run operations
  have hwell := hrun.wellFormed
  -- A run in words is the run, so only the merges at the end have to be compared.
  rw [runWords_eq_run hfits]
  refine ⟨hrun.count_eq, hrun.total_eq, fun t => count_le_total (hwell t).falling,
    fun t u => ?_, fun t u v hlt => ?_, fun t => ?_, fun front back hlt => ?_⟩
  · rw [mergeWords, mergeWords, merge_comm (hwell t) (hwell u)]
  · -- Every partial sum is below the sum of all three, so no merge comes round.
    have hleft := (hwell t).merge (hwell u)
    have hright := (hwell u).merge (hwell v)
    rw [mergeWords_eq_merge (hwell t) (hwell u) (by omega),
      mergeWords_eq_merge (hwell u) (hwell v) (by omega),
      mergeWords_eq_merge hleft (hwell v) (by rwa [total_merge]),
      mergeWords_eq_merge (hwell t) hright (by rw [total_merge]; omega),
      merge_assoc (hwell t) (hwell u) (hwell v)]
  · have hlt : (run operations t).total < 2 ^ 64 := by
      rw [hrun.total_eq]
      exact hfits _ List.prefix_rfl t
    have hself := wrap_eq_self (hwell t).falling hlt
    rw [mergeWords, mergeWords, merge_empty, empty_merge (hwell t)]
    exact ⟨hself, hself⟩
  · rw [List.length_append] at hlt
    rw [ofWindowsWords_eq_ofWindows (by rwa [List.length_append]),
      ofWindowsWords_eq_ofWindows (by omega), ofWindowsWords_eq_ofWindows (by omega),
      mergeWords_eq_merge (wellFormed_ofWindows front) (wellFormed_ofWindows back)
        (by rwa [total_ofWindows, total_ofWindows]), ofWindows_append]

/-- A trie is merged with itself and pruned. The sequence `[1, 3]` was counted once, which is twice
after the merge and no longer rare; `[2, 4]` was counted after the merge and is. -/
theorem tries_refine_counts_merged :
    let operations : List Operation :=
      [.add 0 [1, 3], .merge 0 0, .add 0 [2, 4], .cutoffRare 0 1, .merge 1 0]
    Fits operations ∧ (runWords operations 1).count [1, 3] = 2 ∧
      (runWords operations 1).count [2, 4] = 0 ∧ (runWords operations 1).total = 3 ∧
      mergeWords (runWords operations 1) empty = runWords operations 1 := by
  intro operations
  have hfits : Fits operations := fits_of_length_le (by decide)
  obtain ⟨hcount, htotal, -, -, -, hempty, -⟩ := tries_refine_counts operations hfits
  refine ⟨hfits, ?_, ?_, ?_, (hempty 1).1⟩
  · rw [hcount]
    decide
  · rw [hcount]
    decide
  · rw [htotal]
    decide

end NaturalNames.CountTrie
