import Mathlib.Algebra.BigOperators.Ring.List
import Mathlib.Algebra.Order.BigOperators.Group.List
import Mathlib.Algebra.Order.Group.Nat
import Mathlib.Algebra.Ring.Nat
import NaturalNames.Proofs.Ordered.Map

/-!
# `NaturalNames.Proofs.Ordered.Tally`: counting in parts

A tally lists the keys that were counted, so it is more than the function `Tally.count`: a key
that was never counted is not listed. The theorems say what is listed, and from that:

* `get?_ofCounts`: of keys that come with counts, each is listed with the sum of its own (`sumOf`).
* `merge_ofKeys`: counting two lists apart and merging is counting them in one go.
* `total_ofKeys`: all counts together are as many as there are keys in the list.
* `ofCounts_perm`, `ofKeys_perm`: the order of the keys does not matter.
* `ofCounts_flatMap_entries`: what is counted for each key can be counted for the tally of the keys.
-/

set_option autoImplicit false

namespace NaturalNames.Tally

/-! ### Sums of counts -/

section

variable {κ : Type} [DecidableEq κ]

/-- The sum of the counts that a key comes with. -/
def sumOf (counts : List (κ × Nat)) (k : κ) : Nat :=
  (counts.map fun e => if e.1 = k then e.2 else 0).sum

/-- An entry adds to the sum of its own key. -/
theorem sumOf_cons (e : κ × Nat) (counts : List (κ × Nat)) (k : κ) :
    sumOf (e :: counts) k = (if e.1 = k then e.2 else 0) + sumOf counts k :=
  List.sum_cons

/-- Lists that are put together add up list by list. -/
theorem sumOf_flatMap {β : Type} (list : List β) (counts : β → List (κ × Nat)) (k : κ) :
    sumOf (list.flatMap counts) k = (list.map fun x => sumOf (counts x) k).sum := by
  rw [sumOf, List.map_flatMap, List.flatMap, List.sum_flatten, List.map_map]
  rfl

/-- A key that does not come has no counts. -/
theorem sumOf_eq_zero {counts : List (κ × Nat)} {k : κ} (h : ∀ e ∈ counts, e.1 ≠ k) :
    sumOf counts k = 0 := by
  refine List.sum_eq_zero fun n hn => ?_
  obtain ⟨e, he, rfl⟩ := List.mem_map.1 hn
  exact if_neg (h e he)

/-- A key that comes once has one count. -/
theorem sumOf_of_distinctKeys {counts : List (κ × Nat)} (h : Assoc.DistinctKeys counts) {k : κ}
    {n : Nat} (hmem : (k, n) ∈ counts) : sumOf counts k = n := by
  induction counts with
  | nil => cases hmem
  | cons e rest ih =>
    obtain ⟨hhead, hrest⟩ := List.pairwise_cons.1 h
    rw [sumOf_cons]
    rcases List.mem_cons.1 hmem with rfl | hmem
    · rw [if_pos rfl, sumOf_eq_zero fun e' he' => Ne.symm (hhead e' he'), Nat.add_zero]
    · rw [if_neg (hhead _ hmem), ih hrest hmem, Nat.zero_add]

/-- The counts of a key are those of the keys that it is made of, each times a weight. -/
theorem sumOf_filterMap {κ' : Type} (f : κ' → Option κ) (weight : Nat) (counts : List (κ' × Nat))
    (k : κ) :
    sumOf (counts.filterMap fun e => (f e.1).map fun l => (l, e.2 * weight)) k
      = (counts.map fun e => if f e.1 = some k then weight * e.2 else 0).sum := by
  induction counts with
  | nil => rfl
  | cons e rest ih =>
    rw [List.map_cons, List.sum_cons, ← ih, List.filterMap_cons]
    cases f e.1 with
    | none => simp
    | some l => simp only [Option.map_some, Option.some.injEq, sumOf_cons, Nat.mul_comm]

/-- The same where this is one key at most. -/
theorem sumOf_filterMap_of_iff {κ' : Type} [DecidableEq κ'] {f : κ' → Option κ} {k : κ} {k' : κ'}
    {p : Prop} [Decidable p] (hf : ∀ l, f l = some k ↔ l = k' ∧ p) (weight : Nat)
    (counts : List (κ' × Nat)) :
    sumOf (counts.filterMap fun e => (f e.1).map fun l => (l, e.2 * weight)) k
      = if p then weight * sumOf counts k' else 0 := by
  rw [sumOf_filterMap]
  by_cases hp : p
  · rw [if_pos hp, sumOf, ← List.sum_map_mul_left]
    congr 1
    refine List.map_congr_left fun e _ => ?_
    simp only [hf, hp, and_true, mul_ite, mul_zero]
  · rw [if_neg hp]
    refine List.sum_eq_zero fun n hn => ?_
    obtain ⟨e, -, rfl⟩ := List.mem_map.1 hn
    exact if_neg fun h => hp ((hf _).1 h).2

/-- A factor on every entry is one on the sum. -/
theorem sumOf_map_mul (weight : Nat) (counts : List (κ × Nat)) (k : κ) :
    sumOf (counts.map fun e => (e.1, e.2 * weight)) k = weight * sumOf counts k := by
  rw [sumOf, sumOf, List.map_map, ← List.sum_map_mul_left]
  refine congrArg List.sum (List.map_congr_left fun e _ => ?_)
  simp only [Function.comp_apply, mul_ite, mul_zero, Nat.mul_comm]

/-- A key that comes with one every time. -/
theorem sumOf_map_one (keys : List κ) (k : κ) :
    sumOf (keys.map fun key => (key, 1)) k = keys.count k := by
  induction keys with
  | nil => rfl
  | cons key rest ih =>
    rw [List.map_cons, sumOf_cons, ih, List.count_cons, Nat.add_comm]
    simp only [beq_iff_eq]

end

variable {κ : Type} [Ord κ] [Std.TransOrd κ]

/-- A merge changes the entries of the first tally one after the other. -/
private theorem entries_foldl_add (counts : List (κ × Nat)) (t : Tally κ) :
    (counts.foldl (fun t e => add t e.1 e.2) t).entries
      = counts.foldl (fun m e => Assoc.alter e.1 (fun old => old.getD 0 + e.2) m) t.entries := by
  induction counts generalizing t with
  | nil => rfl
  | cons e rest ih =>
    rw [List.foldl_cons, ih]
    rfl

/-- Counting keys is adding one for each. -/
theorem ofKeys_eq_ofCounts (keys : List κ) :
    ofKeys keys = ofCounts (keys.map fun key => (key, 1)) := by
  rw [ofKeys, ofCounts, List.foldl_map]

/-! ### Totals -/

/-- What is added to a count is added to the total. -/
theorem total_add (t : Tally κ) (k : κ) (n : Nat) : (t.add k n).total = t.total + n := by
  have hsum := Assoc.sum_alter (fun n => n) k (fun old => old.getD 0 + n) t.entries
  rw [Option.map_id'] at hsum
  show ((Assoc.alter k (fun old => old.getD 0 + n) t.entries).map fun e => e.2).sum
    = (t.entries.map fun e => e.2).sum + n
  omega

/-- The sum of all counts is the sum of those that were given. -/
theorem total_ofCounts (counts : List (κ × Nat)) :
    (ofCounts counts).total = (counts.map Prod.snd).sum := by
  have hentries : (ofCounts counts).entries
      = counts.foldl (fun m e => Assoc.alter e.1 (fun old => old.getD 0 + e.2) m) [] :=
    entries_foldl_add counts SortedMap.empty
  have hsum := Assoc.sum_foldl_alter (fun n (old : Option Nat) => old.getD 0 + n) (fun n => n)
    (fun n => n) (by simp) counts []
  show ((ofCounts counts).entries.map Prod.snd).sum = _
  rw [hentries]
  simpa using hsum

/-- The total of counted keys is their number. -/
theorem total_ofKeys (keys : List κ) : (ofKeys keys).total = keys.length := by
  rw [ofKeys_eq_ofCounts, total_ofCounts, List.map_map]
  show (keys.map fun _ => 1).sum = keys.length
  rw [List.map_const', List.sum_replicate_nat, Nat.mul_one]

variable [Std.LawfulEqOrd κ] [DecidableEq κ]

/-- Counting a key stores its count, a count of zero too. -/
theorem get?_add (t : Tally κ) (k k' : κ) (n : Nat) :
    (t.add k n).get? k' = if k' = k then some ((t.get? k).getD 0 + n) else t.get? k' :=
  SortedMap.get?_alter t k k' _

omit [DecidableEq κ] in
/-- The sum of all counts is that of the counts of the keys. -/
theorem total_eq_sum_count (t : Tally κ) : t.total = (t.keys.map t.count).sum := by
  have hcount : ∀ e ∈ t.entries, t.count e.1 = e.2 := by
    intro e he
    rw [count, SortedMap.get?_eq_some_iff.2 he, Option.getD_some]
  have hvalues : t.keys.map t.count = t.values := by
    rw [SortedMap.keys, List.map_map]
    exact List.map_congr_left hcount
  rw [hvalues]
  rfl

/-! ### Merging -/

/-- A merge lists the keys of both tallies, each with the sum of its counts. -/
theorem get?_merge (a b : Tally κ) (k : κ) :
    (merge a b).get? k
      = (b.get? k).elim (a.get? k) fun n => some ((a.get? k).getD 0 + n) := by
  show Assoc.get? k (merge a b).entries = _
  rw [merge, entries_foldl_add, Assoc.get?_foldl_alter
    (fun n (old : Option Nat) => old.getD 0 + n) a.ascending b.ascending]
  rfl

/-! ### Tallies of counts -/

omit [Ord κ] [Std.TransOrd κ] [Std.LawfulEqOrd κ] in
/-- Counts are added up one after the other in whatever finds the count of a key again. -/
theorem find_foldl {σ : Type} (find : σ → Option Nat) (step : σ → κ × Nat → σ) {k : κ}
    (hstep : ∀ s e, find (step s e) = if k = e.1 then some ((find s).getD 0 + e.2) else find s)
    (counts : List (κ × Nat)) (s : σ) :
    find (counts.foldl step s)
      = if k ∈ counts.map Prod.fst then some ((find s).getD 0 + sumOf counts k) else find s := by
  induction counts generalizing s with
  | nil => rfl
  | cons e rest ih =>
    rw [List.foldl_cons, ih, hstep, sumOf_cons]
    simp only [List.map_cons, List.mem_cons]
    by_cases hk : k = e.1
    · subst hk
      -- The key is listed from here on, whether it comes again or not.
      by_cases hrest : e.1 ∈ rest.map Prod.fst
      · simp only [hrest, if_true, or_true, Option.getD_some, Nat.add_assoc]
      · have hzero : sumOf rest e.1 = 0 := sumOf_eq_zero fun e' he' heq =>
          hrest (heq ▸ List.mem_map_of_mem he')
        simp only [hrest, hzero, if_true, if_false, or_false, Nat.add_zero]
    · simp only [hk, Ne.symm hk, if_false, false_or, Nat.zero_add]

/-- A tally of counts lists the keys that come, each with the sum of its counts. -/
theorem get?_ofCounts (counts : List (κ × Nat)) (k : κ) :
    (ofCounts counts).get? k
      = if k ∈ counts.map Prod.fst then some (sumOf counts k) else none := by
  have hstep : ∀ (t : Tally κ) (e : κ × Nat), (t.add e.1 e.2).get? k
      = if k = e.1 then some ((t.get? k).getD 0 + e.2) else t.get? k := by
    intro t e
    rw [get?_add]
    by_cases hk : k = e.1
    · rw [hk]
    · rw [if_neg hk, if_neg hk]
  have h := find_foldl (fun t : Tally κ => t.get? k) (fun t e => t.add e.1 e.2) hstep counts
    SortedMap.empty
  rw [show (SortedMap.empty : Tally κ).get? k = none from rfl] at h
  simpa [ofCounts] using h

/-- Where no count is zero the keys that come are those with a sum. -/
theorem get?_ofCounts_of_pos {counts : List (κ × Nat)} (h : ∀ e ∈ counts, 0 < e.2) (k : κ) :
    (ofCounts counts).get? k
      = if 0 < sumOf counts k then some (sumOf counts k) else none := by
  -- Where all counts are above zero, a key was counted if and only if its sum is.
  have hiff : k ∈ counts.map Prod.fst ↔ 0 < sumOf counts k := by
    constructor
    · intro hk
      obtain ⟨e, he, rfl⟩ := List.mem_map.1 hk
      have hmem : e.2 ∈ counts.map fun e' => if e'.1 = e.1 then e'.2 else 0 :=
        List.mem_map.2 ⟨e, he, if_pos rfl⟩
      exact Nat.lt_of_lt_of_le (h e he) (List.le_sum_of_mem hmem)
    · intro hpos
      by_contra hk
      have hzero : sumOf counts k = 0 := sumOf_eq_zero fun e he heq =>
        hk (heq ▸ List.mem_map_of_mem he)
      omega
  rw [get?_ofCounts]
  simp only [hiff]

/-- The order of the keys and their counts does not matter. -/
theorem ofCounts_perm {counts counts' : List (κ × Nat)} (h : counts.Perm counts') :
    ofCounts counts = ofCounts counts' := by
  refine SortedMap.eq_of_get? ?_
  intro k
  have hsum : sumOf counts k = sumOf counts' k := (h.map _).sum_eq
  rw [get?_ofCounts, get?_ofCounts, hsum]
  simp only [(h.map Prod.fst).mem_iff]

/-- The keys of a tally are those that were counted. -/
theorem mem_keys_ofCounts {counts : List (κ × Nat)} {k : κ} :
    k ∈ (ofCounts counts).keys ↔ k ∈ counts.map Prod.fst := by
  have hget : k ∈ (ofCounts counts).keys ↔ ((ofCounts counts).get? k).isSome = true := by
    rw [Option.isSome_iff_exists, SortedMap.keys, List.mem_map]
    simp only [SortedMap.get?_eq_some_iff]
    exact ⟨fun ⟨e, he, hk⟩ => ⟨e.2, hk ▸ he⟩, fun ⟨n, he⟩ => ⟨(k, n), he, rfl⟩⟩
  rw [hget, get?_ofCounts]
  split <;> simp [*]

omit [DecidableEq κ] in
/-- Keys with weights weigh as much in a tally of counts as in the list of these. -/
theorem sum_mul_ofCounts (weight : κ → Nat) (counts : List (κ × Nat)) :
    ((ofCounts counts).entries.map fun e => e.2 * weight e.1).sum
      = (counts.map fun e => e.2 * weight e.1).sum := by
  have hfold : ∀ t : Tally κ,
      ((counts.foldl (fun t e => add t e.1 e.2) t).entries.map fun e => e.2 * weight e.1).sum
        = (t.entries.map fun e => e.2 * weight e.1).sum
          + (counts.map fun e => e.2 * weight e.1).sum := by
    induction counts with
    | nil => exact fun t => rfl
    | cons e rest ih =>
      intro t
      rw [List.foldl_cons, ih, List.map_cons, List.sum_cons, ← Nat.add_assoc]
      exact congrArg (· + _) (Assoc.sum_mul_alter_add weight e.1 e.2 t.entries)
  exact (hfold SortedMap.empty).trans (Nat.zero_add _)

/-- Counts that each key adds, times its own count, are added by the tally of the keys. -/
theorem ofCounts_flatMap_entries {κ' : Type} [Ord κ'] [Std.TransOrd κ'] [Std.LawfulEqOrd κ']
    [DecidableEq κ'] (parts : κ → List (κ' × Nat)) (counts : List (κ × Nat)) :
    ofCounts ((ofCounts counts).entries.flatMap fun e =>
        (parts e.1).map fun p => (p.1, p.2 * e.2))
      = ofCounts (counts.flatMap fun e => (parts e.1).map fun p => (p.1, p.2 * e.2)) := by
  refine SortedMap.eq_of_get? fun k => ?_
  have hkeys : ∀ list : List (κ × Nat),
      (list.flatMap fun e => (parts e.1).map fun p => (p.1, p.2 * e.2)).map Prod.fst
        = (list.map Prod.fst).flatMap fun key => (parts key).map Prod.fst := by
    intro list
    simp only [List.map_flatMap, List.flatMap_map, List.map_map, Function.comp_def]
  have hmem : ∀ key, key ∈ (ofCounts counts).entries.map Prod.fst ↔ key ∈ counts.map Prod.fst :=
    fun _ => mem_keys_ofCounts
  simp only [get?_ofCounts, hkeys, List.mem_flatMap, hmem, sumOf_flatMap, sumOf_map_mul]
  rw [sum_mul_ofCounts (fun key => sumOf (parts key) k)]

/-! ### Tallies of lists -/

/-- The tally of a list lists its elements, each as often as it stands there. -/
theorem get?_ofKeys (keys : List κ) (k : κ) :
    (ofKeys keys).get? k = if k ∈ keys then some (keys.count k) else none := by
  have hkeys : (keys.map fun key => (key, 1)).map Prod.fst = keys := by
    rw [List.map_map]
    exact List.map_id keys
  rw [ofKeys_eq_ofCounts, get?_ofCounts, sumOf_map_one, hkeys]

/-- The keys of counted keys are these keys. -/
theorem mem_keys_ofKeys {keys : List κ} {k : κ} : k ∈ (ofKeys keys).keys ↔ k ∈ keys := by
  rw [ofKeys_eq_ofCounts, mem_keys_ofCounts]
  simp

/-- Different keys changed into different keys keep their counts. -/
theorem get?_ofKeys_map {κ' : Type} [Ord κ'] [Std.TransOrd κ'] [Std.LawfulEqOrd κ']
    [DecidableEq κ'] {f : κ → κ'} {keys : List κ}
    (hf : ∀ k ∈ keys, ∀ k' ∈ keys, f k = f k' → k = k') {k : κ} (hk : k ∈ keys) :
    (ofKeys (keys.map f)).get? (f k) = (ofKeys keys).get? k := by
  have hcount : (keys.map f).count (f k) = keys.count k := by
    rw [List.count, List.count, List.countP_map]
    refine List.countP_congr fun k' hk' => ?_
    simp only [Function.comp_apply, beq_iff_eq]
    exact ⟨hf k' hk' k hk, congrArg f⟩
  rw [get?_ofKeys, get?_ofKeys, if_pos (List.mem_map_of_mem hk), if_pos hk, hcount]

/-- A key is counted as often as it is in the list. -/
theorem count_ofKeys (keys : List κ) (k : κ) : (ofKeys keys).count k = keys.count k := by
  rw [count, get?_ofKeys]
  split
  · rfl
  · rename_i hk
    rw [List.count_eq_zero_of_not_mem hk]
    rfl

/-- Counting two lists apart and merging is counting them in one go. -/
theorem merge_ofKeys (front back : List κ) :
    merge (ofKeys front) (ofKeys back) = ofKeys (front ++ back) := by
  refine SortedMap.eq_of_get? ?_
  intro k
  rw [get?_merge, get?_ofKeys, get?_ofKeys, get?_ofKeys, List.count_append]
  -- Four cases: a key that stands on one side alone is listed with the count of that side.
  by_cases hfront : k ∈ front
  · by_cases hback : k ∈ back
    · simp [hfront, hback]
    · simp [hfront, hback, List.count_eq_zero_of_not_mem hback]
  · by_cases hback : k ∈ back
    · simp [hfront, hback, List.count_eq_zero_of_not_mem hfront]
    · simp [hfront, hback]

/-- The order of the keys does not matter. -/
theorem ofKeys_perm {keys keys' : List κ} (h : keys.Perm keys') : ofKeys keys = ofKeys keys' := by
  refine SortedMap.eq_of_get? ?_
  intro k
  rw [get?_ofKeys, get?_ofKeys, h.count_eq]
  simp only [h.mem_iff]

end NaturalNames.Tally
