import NaturalNames.Prior.Distribution
import NaturalNames.Proofs.Ordered.Tally

/-!
# `NaturalNames.Proofs.Prior.Distribution`: distributions from what was observed

A distribution keeps two maps, the counts under each condition and the total of each condition, and
what changes one has to change the other. `WellFormed` says that the two are in step. The totals
then hold nothing of their own, and a distribution is the function that finds the stored counts
(`WellFormed.ext`).

So it is enough to say what is stored after an operation. `stored?_record` says it for observations
that are counted one after the other, and `stored?_merge` for those of another distribution, or of
the same one. Both add up stored counts, where a count of zero is more than no count at all
(`Option.merge`). The laws of merging are the laws of this sum:

* `merge_comm` and `merge_assoc`;
* `record_perm`: the order of observations does not matter, so a merge may take them in any order;
* `merge_record`: merging what was counted elsewhere is counting it here.
-/

set_option autoImplicit false

namespace NaturalNames.Distribution

/-! ### Stored counts -/

/-- The count that is stored for an element under a condition. It may be zero. -/
def stored? (d : Distribution) (given element : String) : Option Nat :=
  (d.counts.get? given).bind fun tally => tally.get? element

/-- What is not stored counts as zero. -/
theorem count_eq_getD (d : Distribution) (element given : String) :
    d.count element given = (d.stored? given element).getD 0 := by
  rw [count, stored?]
  cases d.counts.get? given <;> rfl

/-- The counts under a condition are what is stored under it. -/
theorem get?_getD_counts (d : Distribution) (given element : String) :
    ((d.counts.get? given).getD .empty).get? element = d.stored? given element := by
  rw [stored?]
  cases d.counts.get? given <;> rfl

/-- Counting a pair stores its count and changes no other pair. -/
theorem stored?_addCount (d : Distribution) (element given : String) (n : Nat)
    (given' element' : String) :
    (d.addCount element given n).stored? given' element'
      = if (element', given') = (element, given) then some ((d.stored? given' element').getD 0 + n)
        else d.stored? given' element' := by
  rw [stored?, addCount]
  simp only [SortedMap.get?_alter, Prod.mk.injEq]
  by_cases hgiven : given' = given
  · subst hgiven
    rw [if_pos rfl, Option.bind_some, Tally.get?_add, get?_getD_counts, get?_getD_counts]
    by_cases helement : element' = element
    · simp [helement]
    · simp [helement]
  · simp [hgiven, stored?]

/-! ### Counts and totals in step -/

/-- Counts and totals are in step. -/
structure WellFormed (d : Distribution) : Prop where
  /-- A condition is listed with what was seen under it. -/
  get?_counts : ∀ given, d.counts.get? given ≠ some .empty
  /-- The total of a condition is listed where its counts are, and is their sum. -/
  get?_totals : ∀ given, d.totals.get? given = (d.counts.get? given).map Tally.total

namespace WellFormed

variable {d a b : Distribution}

/-- Without observations the totals are in step with the counts. -/
theorem empty : WellFormed .empty where
  get?_counts := nofun
  get?_totals _ := rfl

/-- Counting adds the same to the count and to the total. -/
theorem addCount (h : WellFormed d) (element given : String) (n : Nat) :
    WellFormed (d.addCount element given n) where
  get?_counts := by
    intro given'
    simp only [Distribution.addCount, SortedMap.get?_alter]
    split
    next =>
      -- The entry just written cannot be empty: it holds the element.
      intro hempty
      have hget := Tally.get?_add ((d.counts.get? given).getD .empty) element element n
      rw [Option.some.inj hempty, if_pos rfl] at hget
      cases hget
    next => exact h.get?_counts given'
  get?_totals := by
    intro given'
    simp only [Distribution.addCount, SortedMap.get?_alter, Tally.get?_add, h.get?_totals]
    split
    -- The total of the entry written goes up by what the entry itself goes up by.
    next =>
      rw [Option.map_some, Tally.total_add]
      cases d.counts.get? given <;> rfl
    next => rfl

/-- Nothing is listed under a condition if and only if nothing is stored there. -/
theorem get?_counts_eq_none_iff (h : WellFormed d) {given : String} :
    d.counts.get? given = none ↔ ∀ element, d.stored? given element = none := by
  constructor
  · intro hnone element
    rw [stored?, hnone, Option.bind_none]
  · intro hnone
    cases hget : d.counts.get? given with
    | none => rfl
    -- A table that is stored without an element would be empty, which is ruled out.
    | some tally =>
      have htally : tally = .empty := by
        apply SortedMap.eq_of_get?
        intro element
        have helement := hnone element
        rwa [stored?, hget, Option.bind_some] at helement
      rw [htally] at hget
      exact absurd hget (h.get?_counts given)

/-- Distributions that store the same counts are the same. -/
theorem ext (ha : WellFormed a) (hb : WellFormed b)
    (h : ∀ given element, a.stored? given element = b.stored? given element) : a = b := by
  have hcounts : a.counts = b.counts := by
    apply SortedMap.eq_of_get?
    intro given
    -- A table missing on one side would be empty on the other, so it is missing there too.
    have hgiven := h given
    cases hgeta : a.counts.get? given with
    | none =>
      rw [eq_comm, hb.get?_counts_eq_none_iff]
      intro element
      rw [← hgiven, ha.get?_counts_eq_none_iff.1 hgeta]
    | some tally =>
      cases hgetb : b.counts.get? given with
      | none =>
        simp only [hb.get?_counts_eq_none_iff.1 hgetb] at hgiven
        rw [ha.get?_counts_eq_none_iff.2 hgiven] at hgeta
        cases hgeta
      | some tally' =>
        simp only [stored?, hgeta, hgetb, Option.bind_some] at hgiven
        rw [SortedMap.eq_of_get? hgiven]
  -- The totals are those of the tables.
  have htotals : a.totals = b.totals := by
    apply SortedMap.eq_of_get?
    intro given
    rw [ha.get?_totals, hb.get?_totals, hcounts]
  cases a
  cases b
  simp_all

end WellFormed

/-! ### Observations one after the other -/

/-- Counts observations one after the other. Each is an element with its condition and its count. -/
def record (d : Distribution) (observations : List (String × String × Nat)) : Distribution :=
  observations.foldl (fun d (element, given, n) => d.addCount element given n) d

/-- Observations as counts of pairs: of an element and its condition. -/
def pairCounts (observations : List (String × String × Nat)) : List ((String × String) × Nat) :=
  observations.map fun (element, given, n) => ((element, given), n)

/-- The counts of pairs are the observations. -/
theorem mem_pairCounts_iff {observations : List (String × String × Nat)} {element given : String}
    {n : Nat} :
    ((element, given), n) ∈ pairCounts observations ↔ (element, given, n) ∈ observations := by
  simp [pairCounts]

/-- The sum of the counts that an element was observed with under a condition, if it was. -/
def observed? (observations : List (String × String × Nat)) (given element : String) : Option Nat :=
  if (element, given) ∈ (pairCounts observations).map Prod.fst then
    some (Tally.sumOf (pairCounts observations) (element, given))
  else none

section

variable {d a b c : Distribution} {observations : List (String × String × Nat)}

/-- Recording observations keeps totals and counts in step. -/
theorem WellFormed.record (h : WellFormed d) (observations : List (String × String × Nat)) :
    WellFormed (d.record observations) := by
  induction observations generalizing d with
  | nil => exact h
  | cons o rest ih => exact ih (h.addCount _ _ _)

/-- What was stored and what was observed add up. -/
theorem stored?_record (d : Distribution) (observations : List (String × String × Nat))
    (given element : String) :
    (d.record observations).stored? given element
      = Option.merge (· + ·) (d.stored? given element) (observed? observations given element) := by
  have hfold : d.record observations = (pairCounts observations).foldl
      (fun d o => d.addCount o.1.1 o.1.2 o.2) d := by
    rw [pairCounts, List.foldl_map]
    rfl
  -- An observation changes one stored count and no other.
  have hfind := Tally.find_foldl (fun d : Distribution => d.stored? given element)
    (fun d o => d.addCount o.1.1 o.1.2 o.2) (k := (element, given))
    (fun d o => stored?_addCount d _ _ _ given element) (pairCounts observations) d
  rw [hfold, hfind, observed?]
  split
  next => cases d.stored? given element <;> simp
  next => cases d.stored? given element <;> rfl

/-- What was observed does not depend on the order. -/
theorem observed?_perm {observations' : List (String × String × Nat)}
    (h : observations.Perm observations') (given element : String) :
    observed? observations given element = observed? observations' given element := by
  have hpairs : (pairCounts observations).Perm (pairCounts observations') := h.map _
  have hsum : Tally.sumOf (pairCounts observations) (element, given)
      = Tally.sumOf (pairCounts observations') (element, given) := (hpairs.map _).sum_eq
  simp only [observed?, hsum, (hpairs.map Prod.fst).mem_iff]

/-- Observations may be recorded in two parts. -/
theorem record_append (d : Distribution) (front back : List (String × String × Nat)) :
    d.record (front ++ back) = (d.record front).record back :=
  List.foldl_append

/-- The order of observations does not matter. -/
theorem record_perm (h : WellFormed d) {observations' : List (String × String × Nat)}
    (hperm : observations.Perm observations') : d.record observations = d.record observations' := by
  apply (h.record _).ext (h.record _)
  intro given element
  rw [stored?_record, stored?_record, observed?_perm hperm]

/-! ### Merging -/

/-- Merging is recording the observations of the other side. -/
theorem merge_eq_record (a b : Distribution) : a.merge b = a.record b.observations := rfl

/-- The observations of a distribution are its stored counts. -/
theorem mem_observations_iff {element given : String} {n : Nat} :
    (element, given, n) ∈ d.observations ↔ d.stored? given element = some n := by
  rw [observations, stored?, List.mem_flatMap, Option.bind_eq_some_iff]
  simp only [SortedMap.get?_eq_some_iff, List.mem_map]
  constructor
  · rintro ⟨⟨given', tally⟩, hgiven, ⟨element', n'⟩, helement, heq⟩
    cases heq
    exact ⟨tally, hgiven, helement⟩
  · rintro ⟨tally, hgiven, helement⟩
    exact ⟨(given, tally), hgiven, (element, n), helement, rfl⟩

/-- An element is observed once under a condition. -/
theorem distinctKeys_observations (d : Distribution) :
    Assoc.DistinctKeys (pairCounts d.observations) := by
  rw [Assoc.DistinctKeys, pairCounts, List.pairwise_map, observations, List.pairwise_flatMap]
  -- Under one condition the elements differ. Of two conditions, they themselves do.
  constructor
  · rintro ⟨given, tally⟩ -
    rw [List.pairwise_map]
    refine tally.ascending.distinctKeys.imp fun {a b} hne heq => hne ?_
    have hpair : (a.1, given) = (b.1, given) := heq
    exact (Prod.mk.inj hpair).1
  · refine d.counts.ascending.distinctKeys.imp fun {a b} hne x hx y hy heq => hne ?_
    obtain ⟨e, -, rfl⟩ := List.mem_map.1 hx
    obtain ⟨e', -, rfl⟩ := List.mem_map.1 hy
    exact congrArg Prod.snd heq

/-- What is stored is what is observed. -/
theorem observed?_observations (d : Distribution) (given element : String) :
    observed? d.observations given element = d.stored? given element := by
  rw [observed?]
  cases hstored : d.stored? given element with
  | some n =>
    have hmem := mem_pairCounts_iff.2 (mem_observations_iff.2 hstored)
    rw [if_pos (List.mem_map_of_mem hmem),
      Tally.sumOf_of_distinctKeys d.distinctKeys_observations hmem]
  | none =>
    refine if_neg fun hmem => ?_
    obtain ⟨⟨_, n⟩, hmem, rfl⟩ := List.mem_map.1 hmem
    rw [mem_pairCounts_iff, mem_observations_iff, hstored] at hmem
    cases hmem

/-- A merge adds up what the two distributions store. -/
theorem stored?_merge (a b : Distribution) (given element : String) :
    (a.merge b).stored? given element
      = Option.merge (· + ·) (a.stored? given element) (b.stored? given element) := by
  rw [merge_eq_record, stored?_record, observed?_observations]

/-- Merging keeps totals and counts in step. -/
theorem WellFormed.merge (h : WellFormed a) (b : Distribution) : WellFormed (a.merge b) :=
  h.record b.observations

/-- Merging what was counted elsewhere is counting it here. -/
theorem merge_record (h : WellFormed a) (observations : List (String × String × Nat)) :
    a.merge (empty.record observations) = a.record observations := by
  apply (h.merge _).ext (h.record _)
  intro given element
  rw [stored?_merge, stored?_record, stored?_record]
  cases observed? observations given element <;> rfl

/-- It does not matter which of two distributions is merged into the other. -/
theorem merge_comm (ha : WellFormed a) (hb : WellFormed b) : a.merge b = b.merge a := by
  apply (ha.merge b).ext (hb.merge a)
  intro given element
  rw [stored?_merge, stored?_merge]
  cases a.stored? given element <;> cases b.stored? given element <;> simp [Nat.add_comm]

/-- It does not matter in which order three distributions are merged. -/
theorem merge_assoc (ha : WellFormed a) (b c : Distribution) :
    (a.merge b).merge c = a.merge (b.merge c) := by
  apply ((ha.merge b).merge c).ext (ha.merge (b.merge c))
  intro given element
  rw [stored?_merge, stored?_merge, stored?_merge, stored?_merge]
  cases a.stored? given element <;> cases b.stored? given element <;>
    cases c.stored? given element <;> simp [Nat.add_assoc]

end

end NaturalNames.Distribution
