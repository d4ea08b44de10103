import NaturalNames.Machine

/-!
# `NaturalNames.Proofs.Machine`: chunked work is work on the whole list

`Machine.mapChunks` cuts a list, works on the pieces in any order and sorts what comes back. The
theorems here take the cutting and the order out of every later argument:

* `mapChunks_eq_map`: what comes back is the work on the pieces, in the order of the pieces. The
  arrival order of the machine is gone.
* `flatten_splitEvery`: the pieces make up the list. The chunk length is gone.
* `length_splitEvery_chunkLength_le`: they are not more than there should be.
* `foldl_mapChunks` and `flatMap_mapChunks`: where the results of two neighbouring pieces combine
  to the result of their union, the combination of all pieces is the work on the whole list.
-/

set_option autoImplicit false

namespace NaturalNames.Machine

variable {α β γ : Type}

/-! ### The pieces -/

/-- The pieces of a list make up the list. -/
theorem flatten_splitEvery (size : Nat) (items : List α) :
    (splitEvery size items).flatten = items := by
  -- Along the recursion of `splitEvery`, which drops a piece at a time and not an item.
  fun_induction splitEvery size items with
  | case1 => rfl
  | case2 x rest ih =>
    rw [List.flatten_cons, ih, List.cons_append, List.take_append_drop]

/-- No piece is empty. -/
theorem ne_nil_of_mem_splitEvery {size : Nat} {items chunk : List α}
    (h : chunk ∈ splitEvery size items) : chunk ≠ [] := by
  fun_induction splitEvery size items with
  | case1 => cases h
  | case2 x rest ih =>
    rcases List.mem_cons.1 h with rfl | h
    · exact List.cons_ne_nil _ _
    · exact ih h

/-- Chunks of a length that fills the list in `n` pieces are at most so many. -/
theorem length_splitEvery_le {size n : Nat} {items : List α} (h : items.length ≤ n * size) :
    (splitEvery size items).length ≤ n := by
  fun_induction splitEvery size items generalizing n with
  | case1 => exact Nat.zero_le n
  | case2 x rest ih =>
    rw [List.length_cons] at h ⊢
    cases n with
    | zero => omega
    | succ n =>
      rw [Nat.succ_mul] at h
      refine Nat.succ_le_succ (ih ?_)
      rw [List.length_drop]
      omega

/-- The chunk length is rounded up, so the chunks have room for all items. -/
theorem le_mul_chunkLength (items chunks : Nat) :
    items ≤ max chunks 1 * chunkLength items chunks := by
  have hpos : 0 < max chunks 1 := Nat.lt_of_lt_of_le Nat.zero_lt_one (Nat.le_max_right _ _)
  have hdiv := Nat.div_add_mod (items + (max chunks 1 - 1)) (max chunks 1)
  have hmod := Nat.mod_lt (items + (max chunks 1 - 1)) hpos
  calc items ≤ max chunks 1 * ((items + (max chunks 1 - 1)) / max chunks 1) := by omega
    _ ≤ max chunks 1 * chunkLength items chunks := Nat.mul_le_mul_left _ (Nat.le_max_right _ _)

/-- A list is cut into at most as many chunks as it should be, and into one if it should be none. -/
theorem length_splitEvery_chunkLength_le (items : List α) (chunks : Nat) :
    (splitEvery (chunkLength items.length chunks) items).length ≤ max chunks 1 :=
  length_splitEvery_le (le_mul_chunkLength items.length chunks)

/-- A product that leaves its word asks for fewer chunks. -/
theorem chunkTarget_le (processors factor : Nat) :
    chunkTarget processors factor ≤ processors * max factor 1 := Nat.mod_le _ _

/-! ### The order of arrival -/

/-- Looking up every position of a list gives the list. -/
private theorem filterMap_range_getElem? (items : List α) :
    (List.range items.length).filterMap (fun i => items[i]?) = items := by
  induction items with
  | nil => rfl
  | cons x rest ih =>
    rw [List.length_cons, List.range_succ_eq_map, List.filterMap_cons, List.filterMap_map]
    -- Position zero gives `x`, and position `i + 1` of the list is position `i` of `rest`.
    show x :: (List.range rest.length).filterMap (fun i => rest[i]?) = x :: rest
    rw [ih]

/-- The messages of a machine on which the pieces come in one after the other. -/
private def messagesInTurn (work : List α → β) (chunks : List (List α)) : List (Nat × β) :=
  (List.range chunks.length).filterMap fun i => chunks[i]?.map fun chunk => (i, work chunk)

/-- Messages in turn are numbered upwards. -/
private theorem pairwise_messagesInTurn (work : List α → β) (chunks : List (List α)) :
    (messagesInTurn work chunks).Pairwise fun a b => a.1 < b.1 := by
  refine List.Pairwise.filterMap _ (fun i j hij a ha b hb => ?_) List.pairwise_lt_range
  obtain ⟨_, -, rfl⟩ := Option.map_eq_some_iff.1 ha
  obtain ⟨_, -, rfl⟩ := Option.map_eq_some_iff.1 hb
  exact hij

/-- Messages in turn carry the results of the chunks in turn. -/
private theorem map_snd_messagesInTurn (work : List α → β) (chunks : List (List α)) :
    (messagesInTurn work chunks).map Prod.snd = chunks.map work := by
  calc (messagesInTurn work chunks).map Prod.snd
      = ((List.range chunks.length).filterMap fun i => chunks[i]?).map work := by
        rw [messagesInTurn, List.map_filterMap, List.map_filterMap]
        simp only [Option.map_map, Function.comp_def]
    _ = chunks.map work := by rw [filterMap_range_getElem?]

/-- A number comes in with one result. -/
private theorem eq_of_mem_messagesInTurn {work : List α → β} {chunks : List (List α)}
    {a b : Nat × β} (ha : a ∈ messagesInTurn work chunks) (hb : b ∈ messagesInTurn work chunks)
    (h : a.1 = b.1) : a = b := by
  obtain ⟨i, -, hi⟩ := List.mem_filterMap.1 ha
  obtain ⟨j, -, hj⟩ := List.mem_filterMap.1 hb
  obtain ⟨x, hx, rfl⟩ := Option.map_eq_some_iff.1 hi
  obtain ⟨y, hy, rfl⟩ := Option.map_eq_some_iff.1 hj
  -- A message is determined by its number, as the number says which chunk was worked on.
  have hij : i = j := h
  rw [hij, hy] at hx
  cases hx
  rw [hij]

/-- Sorting by number undoes the arrival: every number comes in once, so one order of the
messages ascends, and that is the order of the chunks. -/
theorem inOrder_messages (machine : Machine) (work : List α → β) (chunks : List (List α)) :
    inOrder (machine.messages work chunks) = chunks.map work := by
  -- Sorted messages and messages in turn are the same ones, both in ascending order.
  have hperm : (machine.messages work chunks).Perm (messagesInTurn work chunks) :=
    (machine.arrival_perm chunks.length).filterMap _
  have hsorted : ((machine.messages work chunks).mergeSort
      fun a b => decide (a.1 ≤ b.1)).Pairwise fun a b => a.1 ≤ b.1 := by
    refine List.Pairwise.imp of_decide_eq_true (List.pairwise_mergeSort ?_ ?_ _)
    · intro a b c hab hbc
      simp only [decide_eq_true_eq] at hab hbc ⊢
      omega
    · intro a b
      simp only [Bool.or_eq_true, decide_eq_true_eq]
      omega
  have hturn : (messagesInTurn work chunks).Pairwise fun a b => a.1 ≤ b.1 :=
    (pairwise_messagesInTurn work chunks).imp Nat.le_of_lt
  -- Ascending numbers determine a list only if no number stands twice.
  have heq := List.Perm.eq_of_pairwise
    (fun a b ha hb hab hba => eq_of_mem_messagesInTurn
      (hperm.subset (List.mem_mergeSort.1 ha)) hb (Nat.le_antisymm hab hba))
    hsorted hturn ((List.mergeSort_perm _ _).trans hperm)
  rw [inOrder, heq, map_snd_messagesInTurn]

/-- The results come back in the order of the chunks, whatever the order in which they came in. -/
theorem mapChunks_eq_map (machine : Machine) (factor : Nat) (work : List α → β)
    (items : List α) :
    machine.mapChunks factor work items =
      (splitEvery (chunkLength items.length (chunkTarget machine.processors factor)) items).map
        work :=
  inOrder_messages machine work _

/-! ### Results that combine -/

/-- Work on pieces, folded up, is work on the whole list, if `op` makes the result of a longer
beginning out of the result of a beginning and that of the piece behind it. -/
theorem foldl_mapChunks (machine : Machine) (factor : Nat) (work : List α → β)
    (op : γ → β → γ) (whole : List α → γ)
    (hop : ∀ front chunk, op (whole front) (work chunk) = whole (front ++ chunk))
    (items : List α) :
    (machine.mapChunks factor work items).foldl op (whole []) = whole items := by
  rw [mapChunks_eq_map]
  -- The beginning that has been folded up is left general.
  suffices h : ∀ (chunks : List (List α)) (front : List α),
      (chunks.map work).foldl op (whole front) = whole (front ++ chunks.flatten) by
    rw [h, flatten_splitEvery, List.nil_append]
  intro chunks
  induction chunks with
  | nil => intro front; simp
  | cons chunk rest ih =>
    intro front
    rw [List.map_cons, List.foldl_cons, hop, ih, List.flatten_cons, List.append_assoc]

/-- Lists found on pieces, one behind the other, are the list found on the whole. -/
theorem flatMap_mapChunks (machine : Machine) (factor : Nat) (work : List α → β)
    (part : β → List γ) (find : α → List γ)
    (hpart : ∀ chunk, part (work chunk) = chunk.flatMap find) (items : List α) :
    (machine.mapChunks factor work items).flatMap part = items.flatMap find := by
  let chunks := splitEvery (chunkLength items.length (chunkTarget machine.processors factor)) items
  calc (machine.mapChunks factor work items).flatMap part
      = chunks.flatMap fun chunk => chunk.flatMap find := by
        rw [mapChunks_eq_map, List.flatMap_map]
        simp only [hpart]
        rfl
    _ = chunks.flatten.flatMap find := by rw [List.flatten_eq_flatMap, List.flatMap_assoc]; rfl
    _ = items.flatMap find := by rw [flatten_splitEvery]

end NaturalNames.Machine
