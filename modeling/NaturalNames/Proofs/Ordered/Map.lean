import NaturalNames.Ordered.Map
import NaturalNames.Proofs.Ordered.Assoc

/-!
# `NaturalNames.Proofs.Ordered.Map`: maps from their entries

A map can be put together again from its entries in any order:

* `get?_ofList_of_mem`: where no key stands twice, `ofList` finds what the list says.
* `ofList_perm_entries`: any listing of the entries of a map gives the map back.
-/

set_option autoImplicit false

namespace NaturalNames.SortedMap

variable {κ ν : Type} [Ord κ]

/-- The keys of a map ascend. -/
theorem pairwise_keys (m : SortedMap κ ν) : m.keys.Pairwise fun a b => compare a b = .lt :=
  List.pairwise_map.2 m.ascending

variable [Std.TransOrd κ]

/-- No key is listed twice. -/
theorem nodup_keys (m : SortedMap κ ν) : m.keys.Nodup :=
  List.pairwise_map.2 m.ascending.distinctKeys

/-- A run of insertions is one of changes to the entries. -/
private theorem entries_foldl_insert (entries : List (κ × ν)) (m : SortedMap κ ν) :
    (entries.foldl (fun m e => m.insert e.1 e.2) m).entries
      = entries.foldl (fun m e => Assoc.alter e.1 (fun _ => e.2) m) m.entries := by
  induction entries generalizing m with
  | nil => rfl
  | cons e rest ih =>
    rw [List.foldl_cons, ih]
    rfl

/-- A map from a list has the entries that come of putting in one after the other. -/
theorem entries_ofList (entries : List (κ × ν)) :
    (ofList entries).entries
      = entries.foldl (fun m e => Assoc.alter e.1 (fun _ => e.2) m) [] :=
  entries_foldl_insert entries empty

variable [Std.LawfulEqOrd κ]

/-- A value is found under a key if the two are an entry. -/
theorem get?_eq_some_iff {m : SortedMap κ ν} {k : κ} {v : ν} :
    m.get? k = some v ↔ (k, v) ∈ m.entries :=
  Assoc.get?_eq_some_iff m.ascending

variable [DecidableEq κ]

/-- With distinct keys every entry of the list is found. -/
theorem get?_ofList_of_mem {entries : List (κ × ν)} (h : Assoc.DistinctKeys entries) {k : κ}
    {v : ν} (hmem : (k, v) ∈ entries) : (ofList entries).get? k = some v := by
  show Assoc.get? k (ofList entries).entries = some v
  rw [entries_ofList]
  exact Assoc.get?_foldl_alter_of_mem (fun v (_ : Option ν) => v) .nil h hmem

/-- Under a key that the list does not have nothing is found. -/
theorem get?_ofList_eq_none {entries : List (κ × ν)} {k : κ} (h : ∀ e ∈ entries, e.1 ≠ k) :
    (ofList entries).get? k = none := by
  show Assoc.get? k (ofList entries).entries = none
  rw [entries_ofList]
  exact Assoc.get?_foldl_alter_of_forall_ne (fun v (_ : Option ν) => v) .nil h

/-- What is found after insertions was inserted or was there before. -/
private theorem mem_or_get?_of_foldl_insert {entries : List (κ × ν)} {m : SortedMap κ ν} {k : κ}
    {v : ν} (h : (entries.foldl (fun m e => m.insert e.1 e.2) m).get? k = some v) :
    (k, v) ∈ entries ∨ m.get? k = some v := by
  induction entries generalizing m with
  | nil => exact .inr h
  | cons e rest ih =>
    -- What is found at the end was listed behind `e`, or is `e`, or was there before.
    rcases ih h with hrest | hinsert
    · exact .inl (List.mem_cons_of_mem _ hrest)
    · have halter : (m.alter e.1 fun _ => e.2).get? k = some v := hinsert
      rw [get?_alter] at halter
      split at halter
      next heq =>
        cases halter
        exact .inl (heq ▸ List.mem_cons_self ..)
      next => exact .inr halter

/-- A map holds no entry that was not listed. -/
theorem mem_of_mem_ofList {entries : List (κ × ν)} {e : κ × ν} (h : e ∈ (ofList entries).entries) :
    e ∈ entries := by
  rcases mem_or_get?_of_foldl_insert (get?_eq_some_iff.2 h) with hmem | hempty
  · exact hmem
  · cases hempty

/-- A map has no more entries than the list that it is made from. -/
theorem length_ofList_le (entries : List (κ × ν)) :
    (ofList entries).entries.length ≤ entries.length := by
  have hnodup : (ofList entries).entries.Nodup :=
    List.Pairwise.of_map Prod.fst (fun _ _ hne heq => hne (heq ▸ rfl)) (nodup_keys (ofList entries))
  exact hnodup.length_le_of_subset fun _ => mem_of_mem_ofList

/-- The entries of a map, in any order, give the map back. -/
theorem ofList_perm_entries {m : SortedMap κ ν} {listing : List (κ × ν)}
    (h : listing.Perm m.entries) : ofList listing = m := by
  -- In another order the keys are still distinct, so every entry is found.
  have hdistinct : Assoc.DistinctKeys listing :=
    m.ascending.distinctKeys.perm h.symm fun hne => Ne.symm hne
  refine eq_of_get? ?_
  intro k
  cases hk : m.get? k with
  | some v => exact get?_ofList_of_mem hdistinct (h.mem_iff.2 (get?_eq_some_iff.1 hk))
  | none =>
    refine get?_ofList_eq_none ?_
    intro e he heq
    have hsome : m.get? k = some e.2 := get?_eq_some_iff.2 (heq ▸ h.mem_iff.1 he)
    rw [hk] at hsome
    cases hsome

end NaturalNames.SortedMap
