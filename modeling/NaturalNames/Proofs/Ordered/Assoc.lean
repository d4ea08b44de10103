import Mathlib.Algebra.GroupWithZero.Nat
import NaturalNames.Ordered.Assoc

/-!
# `NaturalNames.Proofs.Ordered.Assoc`: association lists as finite maps

Further laws of the lists in `NaturalNames.Ordered.Assoc`:

* `get?_eq_some_iff`: in an ascending list a look-up finds exactly the entries of the list.
* `get?_filter` and `get?_mapValues`: what look-ups find after entries were dropped or changed.
* `get?_foldl_alter`: many changes, one after the other, at different keys. This is how maps are
  merged and read from bytes, so the merging of counts and of tries rests on it.
* `sum_alter` and `sum_foldl_alter`: what changes do to a sum over all values. In
  `sum_mul_alter_add` each key has a weight of its own.
-/

set_option autoImplicit false

namespace NaturalNames.Assoc

variable {κ ν μ : Type} [Ord κ]

/-- No two entries have one key. -/
def DistinctKeys (entries : List (κ × ν)) : Prop :=
  entries.Pairwise fun a b => a.1 ≠ b.1

/-- Entries in order have distinct keys. -/
theorem Ascending.distinctKeys [Std.TransOrd κ] {entries : List (κ × ν)}
    (h : Ascending entries) : DistinctKeys entries :=
  h.imp fun {a b} hlt heq => by
    rw [heq, Std.ReflOrd.compare_self] at hlt
    cases hlt

/-! ### Look-ups and entries -/

/-- A look-up in an ascending list finds an entry exactly where there is one. -/
theorem get?_eq_some_iff [Std.TransOrd κ] [Std.LawfulEqOrd κ] {k : κ} {v : ν}
    {entries : List (κ × ν)} (h : Ascending entries) :
    get? k entries = some v ↔ (k, v) ∈ entries := by
  induction entries with
  | nil => simp [get?]
  | cons head rest ih =>
    obtain ⟨key, w⟩ := head
    obtain ⟨hhead, hrest⟩ := List.pairwise_cons.1 h
    rw [get?, List.mem_cons]
    split
    · -- `k` is below the first key and so below all others.
      rename_i hlt
      refine ⟨fun hv => ?_, fun hmem => ?_⟩
      · cases hv
      exfalso
      rcases hmem with heq | hmem
      · cases heq
        rw [Std.ReflOrd.compare_self] at hlt
        cases hlt
      · have hgt : compare key k = .lt := hhead _ hmem
        rw [Std.OrientedCmp.gt_of_lt hgt] at hlt
        cases hlt
    · rename_i heq
      have hkey : k = key := Std.LawfulEqCmp.eq_of_compare heq
      subst hkey
      constructor
      · intro hv
        cases hv
        exact .inl rfl
      · intro hmem
        rcases hmem with hv | hmem
        · cases hv
          rfl
        · -- The key of the first entry does not stand again.
          have hlt : compare k k = .lt := hhead _ hmem
          rw [heq] at hlt
          cases hlt
    · rename_i hgt
      rw [ih hrest]
      refine ⟨.inr, fun hmem => hmem.resolve_left fun heq => ?_⟩
      cases heq
      rw [Std.ReflOrd.compare_self] at hgt
      cases hgt

/-- Nothing is found under a key that has no entry. -/
theorem get?_eq_none_iff [Std.TransOrd κ] [Std.LawfulEqOrd κ] {k : κ}
    {entries : List (κ × ν)} (h : Ascending entries) :
    get? k entries = none ↔ ∀ v, (k, v) ∉ entries := by
  rw [Option.eq_none_iff_forall_ne_some]
  exact forall_congr' fun v => not_congr (get?_eq_some_iff h)

/-- Entries that fail a test are not found any more, and all others are. -/
theorem get?_filter [Std.TransOrd κ] [Std.LawfulEqOrd κ] {k : κ} {entries : List (κ × ν)}
    (p : κ → ν → Bool) (h : Ascending entries) :
    get? k (entries.filter fun e => p e.1 e.2) = (get? k entries).filter (p k) := by
  ext v
  rw [get?_eq_some_iff (List.Pairwise.filter _ h), List.mem_filter, Option.filter_eq_some_iff,
    get?_eq_some_iff h]

/-- Under each key the changed value is found. -/
theorem get?_mapValues {k : κ} (f : ν → μ) (entries : List (κ × ν)) :
    get? k (entries.map fun e => (e.1, f e.2)) = (get? k entries).map f := by
  induction entries with
  | nil => rfl
  | cons head rest ih =>
    rw [List.map_cons, get?, get?]
    split
    · rfl
    · rfl
    · exact ih

/-- What is found is the value of an entry. -/
theorem exists_mem_of_get? {k : κ} {v : ν} {entries : List (κ × ν)}
    (h : get? k entries = some v) : ∃ e ∈ entries, e.2 = v := by
  induction entries with
  | nil => cases h
  | cons head rest ih =>
    rw [get?] at h
    split at h
    · cases h
    · cases h
      exact ⟨head, by simp, rfl⟩
    · obtain ⟨e, he, hv⟩ := ih h
      exact ⟨e, by simp [he], hv⟩

/-- Changing values keeps entries in order. -/
theorem Ascending.mapValues {entries : List (κ × ν)} (f : ν → μ) (h : Ascending entries) :
    Ascending (entries.map fun e => (e.1, f e.2)) :=
  List.pairwise_map.2 h

/-! ### Properties of all values -/

/-- A property of all values outlives a change that gives a value with it. -/
theorem forall_mem_alter {p : ν → Prop} {k : κ} {f : Option ν → ν} {entries : List (κ × ν)}
    (h : ∀ e ∈ entries, p e.2) (hf : p (f (get? k entries))) :
    ∀ e ∈ alter k f entries, p e.2 := by
  induction entries with
  | nil =>
    intro e he
    rw [alter, List.mem_singleton] at he
    rw [he]
    exact hf
  | cons head rest ih =>
    obtain ⟨key, v⟩ := head
    have hrest : ∀ e ∈ rest, p e.2 := fun e he => h e (by simp [he])
    rw [get?] at hf
    rw [alter]
    intro e he
    -- The change is made in front of `key`, at `key` or in `rest`. In each case `e` is the first
    -- entry of what comes of it or stands behind that.
    split at he <;> rename_i hc <;> simp only [hc] at hf <;>
      rcases List.mem_cons.1 he with rfl | he
    · exact hf
    · exact h e he
    · exact hf
    · exact hrest e he
    · exact h _ (by simp)
    · exact ih hrest hf e he

/-- The same of many changes. A change may rely on the property of the value that it changes. -/
theorem forall_mem_foldl_alter {p : ν → Prop} {f : μ → Option ν → ν} {changes : List (κ × μ)}
    {entries : List (κ × ν)} (h : ∀ e ∈ entries, p e.2)
    (hf : ∀ e ∈ changes, ∀ old : Option ν, (∀ v, old = some v → p v) → p (f e.2 old)) :
    ∀ e ∈ changes.foldl (fun m e => alter e.1 (f e.2) m) entries, p e.2 := by
  induction changes generalizing entries with
  | nil => exact h
  | cons e rest ih =>
    -- The old value, if there is one, stands in the list, so it has the property.
    refine ih (forall_mem_alter h (hf e (by simp) _ fun v hv => ?_))
      fun e' he' => hf e' (by simp [he'])
    obtain ⟨e', he', rfl⟩ := exists_mem_of_get? hv
    exact h e' he'

/-! ### Many changes, one after the other -/

section FoldlAlter

variable [Std.TransOrd κ] (f : μ → Option ν → ν)

/-- Changing one entry after the other keeps them in order. -/
theorem ascending_foldl_alter {changes : List (κ × μ)} {entries : List (κ × ν)}
    (h : Ascending entries) :
    Ascending (changes.foldl (fun m e => alter e.1 (f e.2) m) entries) := by
  induction changes generalizing entries with
  | nil => exact h
  | cons e rest ih => exact ih h.alter

variable [Std.LawfulEqOrd κ] [DecidableEq κ]

/-- A key at which nothing changes keeps its value. -/
theorem get?_foldl_alter_of_forall_ne {k : κ} {changes : List (κ × μ)} {entries : List (κ × ν)}
    (h : Ascending entries) (hk : ∀ e ∈ changes, e.1 ≠ k) :
    get? k (changes.foldl (fun m e => alter e.1 (f e.2) m) entries) = get? k entries := by
  induction changes generalizing entries with
  | nil => rfl
  | cons e rest ih =>
    rw [List.foldl_cons, ih h.alter fun e' he' => hk e' (by simp [he']), get?_alter h,
      if_neg (Ne.symm (hk e (by simp)))]

/-- A key at which one change is made gets its value from that change and from the value it had
before all of them. -/
theorem get?_foldl_alter_of_mem {k : κ} {v : μ} {changes : List (κ × μ)}
    {entries : List (κ × ν)} (h : Ascending entries) (hdistinct : DistinctKeys changes)
    (hmem : (k, v) ∈ changes) :
    get? k (changes.foldl (fun m e => alter e.1 (f e.2) m) entries)
      = some (f v (get? k entries)) := by
  induction changes generalizing entries with
  | nil => cases hmem
  | cons e rest ih =>
    obtain ⟨hhead, hrest⟩ := List.pairwise_cons.1 hdistinct
    rw [List.foldl_cons]
    rcases List.mem_cons.1 hmem with rfl | hmem
    · -- The first change is the one at `k`, and none follows.
      rw [get?_foldl_alter_of_forall_ne f h.alter fun e' he' => Ne.symm (hhead e' he'),
        get?_alter h, if_pos rfl]
    · have hne : k ≠ e.1 := Ne.symm (hhead _ hmem)
      rw [ih h.alter hrest hmem, get?_alter h, if_neg hne]

/-- The changes of an ascending list: a key of that list changes, and every other key keeps what
it had. -/
theorem get?_foldl_alter {k : κ} {changes : List (κ × μ)} {entries : List (κ × ν)}
    (h : Ascending entries) (hchanges : Ascending changes) :
    get? k (changes.foldl (fun m e => alter e.1 (f e.2) m) entries)
      = (get? k changes).elim (get? k entries) fun v => some (f v (get? k entries)) := by
  cases hk : get? k changes with
  | some v =>
    exact get?_foldl_alter_of_mem f h hchanges.distinctKeys ((get?_eq_some_iff hchanges).1 hk)
  | none =>
    -- A change at `k` would be found in the list of changes.
    refine get?_foldl_alter_of_forall_ne f h ?_
    intro e he heq
    rw [get?_eq_none_iff hchanges] at hk
    exact hk e.2 (heq ▸ he)

end FoldlAlter

/-! ### Sums over all values -/

/-- A change takes the old value of its key out of a sum and puts the new one in. -/
theorem sum_alter (weight : ν → Nat) (k : κ) (f : Option ν → ν) (entries : List (κ × ν)) :
    ((alter k f entries).map fun e => weight e.2).sum + ((get? k entries).map weight).getD 0
      = (entries.map fun e => weight e.2).sum + weight (f (get? k entries)) := by
  induction entries with
  | nil => simp [alter, get?]
  | cons head rest ih =>
    rw [alter, get?]
    split
    · simp only [List.map_cons, List.sum_cons, Option.map_none, Option.getD_none]
      omega
    · simp only [List.map_cons, List.sum_cons, Option.map_some, Option.getD_some]
      omega
    · simp only [List.map_cons, List.sum_cons]
      omega

/-- Changes that each add a weight add the sum of these weights. -/
theorem sum_foldl_alter (f : μ → Option ν → ν) (weight : ν → Nat) (added : μ → Nat)
    (hf : ∀ v old, weight (f v old) = (old.map weight).getD 0 + added v)
    (changes : List (κ × μ)) (entries : List (κ × ν)) :
    ((changes.foldl (fun m e => alter e.1 (f e.2) m) entries).map fun e => weight e.2).sum
      = (entries.map fun e => weight e.2).sum + (changes.map fun e => added e.2).sum := by
  induction changes generalizing entries with
  | nil => simp
  | cons e rest ih =>
    -- The old value is on both sides, as the new one weighs what the old one did and more.
    have hsum := sum_alter weight e.1 (f e.2) entries
    rw [hf] at hsum
    rw [List.foldl_cons, ih, List.map_cons, List.sum_cons]
    omega

/-- What is added to the value of a key is added to a weighted sum as often as the key weighs. -/
theorem sum_mul_alter_add [Std.LawfulEqOrd κ] (weight : κ → Nat) (k : κ) (n : Nat)
    (entries : List (κ × Nat)) :
    ((alter k (fun old => old.getD 0 + n) entries).map fun e => e.2 * weight e.1).sum
      = (entries.map fun e => e.2 * weight e.1).sum + n * weight k := by
  induction entries with
  | nil => simp [alter]
  | cons head rest ih =>
    rw [alter]
    -- The key is new, or it is the one in front, or it comes further behind.
    split
    · simp only [List.map_cons, List.sum_cons, Option.getD_none, Nat.zero_add]
      omega
    · rename_i h
      obtain rfl := Std.LawfulEqCmp.eq_of_compare h
      simp only [List.map_cons, List.sum_cons, Option.getD_some, Nat.add_mul]
      omega
    · simp only [List.map_cons, List.sum_cons, ih]
      omega

end NaturalNames.Assoc
