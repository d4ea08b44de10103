/-!
# `NaturalNames.Ordered.Assoc`: association lists in key order

A finite map is kept as a list of key-value pairs with strictly ascending keys. The list form is
what a recursive type can hold (a trie node keeps its children this way), and it has one value
per map: two lists with the same look-ups are the same list.

* `get?` looks a key up.
* `alter` changes the value of one key, `modify`-style, and keeps the order.
* `Ascending.alter` says that the order is kept.
* `get?_alter` says what a look-up finds after a change, `eq_of_get?` that look-ups say all.
-/

set_option autoImplicit false

namespace NaturalNames.Assoc

variable {κ ν : Type} [Ord κ]

/-- The value of a key. The search ends at the first greater key. -/
def get? (k : κ) : List (κ × ν) → Option ν
  | [] => none
  | (k', v) :: rest =>
    match compare k k' with
    | .lt => none
    | .eq => some v
    | .gt => get? k rest

/-- Gives `k` the value `f old`, where `old` is what the key had before, if it had one. A key
that is already there keeps its own spelling. -/
def alter (k : κ) (f : Option ν → ν) : List (κ × ν) → List (κ × ν)
  | [] => [(k, f none)]
  | (k', v) :: rest =>
    match compare k k' with
    | .lt => (k, f none) :: (k', v) :: rest
    | .eq => (k', f (some v)) :: rest
    | .gt => (k', v) :: alter k f rest

/-- The keys ascend, so no key stands twice. -/
def Ascending (entries : List (κ × ν)) : Prop :=
  entries.Pairwise fun a b => compare a.1 b.1 = .lt

/-- No entries are in order. -/
theorem Ascending.nil : Ascending ([] : List (κ × ν)) := List.Pairwise.nil

/-! ### Order is kept -/

/-- Every key of an altered list is the altered key or was there before. -/
theorem fst_of_mem_alter {k : κ} {f : Option ν → ν} {entries : List (κ × ν)}
    {e : κ × ν} (h : e ∈ alter k f entries) :
    e.1 = k ∨ ∃ e' ∈ entries, e'.1 = e.1 := by
  induction entries with
  | nil => simp [alter] at h; exact .inl (by rw [h])
  | cons head rest ih =>
    obtain ⟨k', v⟩ := head
    rw [alter] at h
    split at h
    · rcases List.mem_cons.1 h with rfl | h
      · exact .inl rfl
      · exact .inr ⟨e, h, rfl⟩
    · rcases List.mem_cons.1 h with rfl | h
      · exact .inr ⟨(k', v), by simp, rfl⟩
      · exact .inr ⟨e, List.mem_cons_of_mem _ h, rfl⟩
    · rcases List.mem_cons.1 h with rfl | h
      · exact .inr ⟨(k', v), by simp, rfl⟩
      · rcases ih h with h | ⟨e', he', h⟩
        · exact .inl h
        · exact .inr ⟨e', List.mem_cons_of_mem _ he', h⟩

/-- Changing the entry of a key keeps entries in order. -/
theorem Ascending.alter [Std.TransOrd κ] {k : κ} {f : Option ν → ν} {entries : List (κ × ν)}
    (h : Ascending entries) : Ascending (alter k f entries) := by
  induction entries with
  | nil => simp [Assoc.alter, Ascending]
  | cons head rest ih =>
    obtain ⟨k', v⟩ := head
    have hrest : Ascending rest := (List.pairwise_cons.1 h).2
    have hhead := (List.pairwise_cons.1 h).1
    rw [Assoc.alter]
    split
    · rename_i hlt
      refine List.pairwise_cons.2 ⟨fun e he => ?_, h⟩
      rcases List.mem_cons.1 he with rfl | he
      · exact hlt
      · exact Std.TransCmp.lt_trans hlt (hhead e he)
    · exact List.pairwise_cons.2 ⟨hhead, hrest⟩
    · rename_i hgt
      refine List.pairwise_cons.2 ⟨fun e he => ?_, ih hrest⟩
      rcases fst_of_mem_alter he with heq | ⟨e', he', heq⟩
      · show compare k' e.1 = .lt
        rw [heq]
        exact Std.OrientedCmp.lt_of_gt hgt
      · show compare k' e.1 = .lt
        rw [← heq]
        exact hhead e' he'

/-! ### Look-ups -/

/-- Keys below all keys of a list are not found in it. -/
theorem get?_eq_none {k : κ} {entries : List (κ × ν)}
    (h : ∀ e ∈ entries, compare k e.1 = .lt) : get? k entries = none := by
  cases entries with
  | nil => rfl
  | cons e rest =>
    have hlt := h e (by simp)
    simp [get?, hlt]

/-- After a change the changed key has its new value, and every other key the one it had. -/
theorem get?_alter [Std.TransOrd κ] [Std.LawfulEqOrd κ] [DecidableEq κ] {k k' : κ}
    {f : Option ν → ν} {entries : List (κ × ν)} (h : Ascending entries) :
    get? k' (alter k f entries) =
      if k' = k then some (f (get? k entries)) else get? k' entries := by
  induction entries with
  | nil =>
    by_cases hk : k' = k
    · subst hk
      simp [alter, get?]
    · -- The new key is the only one, and it is another.
      have hne : compare k' k ≠ .eq := fun e => hk (Std.LawfulEqCmp.eq_of_compare e)
      cases hc : compare k' k <;> simp_all [alter, get?]
  | cons head rest ih =>
    obtain ⟨key, v⟩ := head
    have hrest : Ascending rest := (List.pairwise_cons.1 h).2
    rw [alter]
    split
    · -- The new key stands in front.
      rename_i hlt
      by_cases hk : k' = k
      · subst hk
        simp [get?, hlt]
      · have hne : compare k' k ≠ .eq := fun e => hk (Std.LawfulEqCmp.eq_of_compare e)
        cases hc : compare k' k with
        | eq => exact absurd hc hne
        | gt => simp [get?, hc, hk]
        | lt =>
          have := Std.TransCmp.lt_trans hc hlt
          simp [get?, hc, hk, this]
    · -- The key in front is the one that changes.
      rename_i heq
      have heq' : k = key := Std.LawfulEqCmp.eq_of_compare heq
      subst heq'
      by_cases hk : k' = k
      · subst hk
        simp [get?]
      · have hne : compare k' k ≠ .eq := fun e => hk (Std.LawfulEqCmp.eq_of_compare e)
        cases hc : compare k' k <;> simp_all [get?]
    · -- The change is further back.
      rename_i hgt
      by_cases hk : k' = k
      · subst hk
        simp [get?, hgt, ih hrest]
      · cases hc : compare k' key <;> simp [get?, hc, hk, ih hrest]

/-- Two ascending lists with the same look-ups are the same list. -/
theorem eq_of_get? [Std.TransOrd κ] [Std.LawfulEqOrd κ] {a b : List (κ × ν)}
    (ha : Ascending a) (hb : Ascending b) (h : ∀ k, get? k a = get? k b) : a = b := by
  induction a generalizing b with
  | nil =>
    cases b with
    | nil => rfl
    | cons e rest =>
      have := h e.1
      simp [get?] at this
  | cons e rest ih =>
    cases b with
    | nil =>
      have := h e.1
      simp [get?] at this
    | cons e' rest' =>
      obtain ⟨hlt, hrest⟩ := List.pairwise_cons.1 ha
      obtain ⟨hlt', hrest'⟩ := List.pairwise_cons.1 hb
      -- The first keys agree, as each is found in the other list.
      have hkey : compare e.1 e'.1 = .eq := by
        cases hc : compare e.1 e'.1 with
        | eq => rfl
        | lt =>
          have := h e.1
          simp [get?, hc] at this
        | gt =>
          have := h e'.1
          simp [get?, Std.OrientedCmp.lt_of_gt hc] at this
      have hkey' : e.1 = e'.1 := Std.LawfulEqCmp.eq_of_compare hkey
      have hval : e.2 = e'.2 := by
        have := h e.1
        simpa [get?, hkey] using this
      have hhead : e = e' := Prod.ext hkey' hval
      subst hhead
      congr 1
      refine ih hrest hrest' fun k => ?_
      have hk := h k
      cases hc : compare k e.1 with
      | gt => simpa [get?, hc] using hk
      | eq =>
        have : k = e.1 := Std.LawfulEqCmp.eq_of_compare hc
        subst this
        rw [get?_eq_none hlt, get?_eq_none hlt']
      | lt =>
        rw [get?_eq_none fun x hx => Std.TransCmp.lt_trans hc (hlt x hx),
          get?_eq_none fun x hx => Std.TransCmp.lt_trans hc (hlt' x hx)]

end NaturalNames.Assoc
