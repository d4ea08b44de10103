import Mathlib
import NaturalNames.Proofs.Number.Real
import NaturalNames.Proofs.Prior.Words
import NaturalNames.Proofs.Renamer.Pool

/-!
# `NaturalNames.Proofs.Prior.Share`: the shares under a condition add up to one

A share is a count over the total, and the total is the sum of the counts in every distribution that
a program can make (`Made`), as long as the sums of what it observed stay in words of 64 bits. So
the shares of what is stored under a condition add up to one, unless nothing but zeros is stored
there; then all shares are zero, which is also the number a quotient by zero would give.

The likeliest element is the first in the order by frequency. Which one that is can be said without
a search (`IsMostLikely`), and so it does not matter in what order a search meets the elements
(`mostLikelyWalked?_eq`). A search that takes them in turn has to give way to an element that comes
earlier by name, and the order by frequency is what tells it to.
-/

set_option autoImplicit false

namespace NaturalNames.Distribution

open Renamer (byFrequency byFrequency_eq_then eq_of_byFrequency)

/-! ### The most frequent entry -/

/-- The entry in front has no smaller count, and with an equal one it comes first by name. -/
theorem le_of_isLE_byFrequency {a b : String × Nat} (h : (byFrequency a b).isLE = true) :
    b.2 ≤ a.2 ∧ (b.2 = a.2 → a.1 ≤ b.1) := by
  rw [byFrequency_eq_then, Ordering.isLE_then_iff_or] at h
  rcases h with hlt | ⟨heq, hname⟩
  · have hcount := Nat.compare_eq_lt.1 hlt
    exact ⟨hcount.le, fun heq => absurd heq hcount.ne⟩
  · refine ⟨(Nat.compare_eq_eq.1 heq).le, fun _ => ?_⟩
    rcases Ordering.isLE_iff_eq_lt_or_eq_eq.1 hname with hlt | heq
    · exact (compareOfLessAndEq_eq_lt.1 hlt).le
    · exact (Std.LawfulEqCmp.eq_of_compare heq).le

/-- An entry of a list that is in front of all others by frequency. -/
structure IsFirst (entries : List (String × Nat)) (first : String × Nat) : Prop where
  mem : first ∈ entries
  isLE : ∀ e ∈ entries, (byFrequency first e).isLE = true

/-- There is one such entry. -/
theorem IsFirst.eq {entries : List (String × Nat)} {a b : String × Nat} (ha : IsFirst entries a)
    (hb : IsFirst entries b) : a = b :=
  eq_of_byFrequency (Std.OrientedCmp.isLE_antisymm (ha.isLE b hb.mem) (hb.isLE a ha.mem))

/-- Only among no entries none is the most frequent. -/
theorem mostCounted_eq_none_iff {entries : List (String × Nat)} :
    mostCounted entries = none ↔ entries = [] := by
  cases entries with
  | nil => simp [mostCounted]
  | cons e rest =>
    rw [mostCounted]
    cases mostCounted rest with
    | none => simp
    | some best =>
      dsimp only
      split <;> simp

/-- Where the names ascend, the entry that is met first is first by frequency. -/
theorem isFirst_mostCounted {entries : List (String × Nat)} (h : Assoc.Ascending entries)
    {best : String × Nat} (hbest : mostCounted entries = some best) : IsFirst entries best := by
  induction entries generalizing best with
  | nil => cases hbest
  | cons e rest ih =>
    obtain ⟨hhead, hrest⟩ := List.pairwise_cons.1 h
    have hself : (byFrequency e e).isLE = true := Std.ReflCmp.isLE_rfl
    rw [mostCounted] at hbest
    cases hmost : mostCounted rest with
    | none =>
      rw [hmost] at hbest
      cases hbest
      rw [mostCounted_eq_none_iff.1 hmost]
      exact ⟨List.mem_singleton_self _, by simpa using hself⟩
    | some found =>
      have hfound := ih hrest hmost
      rw [hmost] at hbest
      dsimp only at hbest
      split at hbest
      next hlt =>
        cases hbest
        refine ⟨List.mem_cons_of_mem _ hfound.mem, List.forall_mem_cons.2 ⟨?_, hfound.isLE⟩⟩
        rw [byFrequency_eq_then, Nat.compare_eq_lt.2 hlt]
        rfl
      next hge =>
        cases hbest
        -- The entry stays if the one behind has no greater count, and its name comes first.
        have hle : (byFrequency e found).isLE = true := by
          have hname : compare e.1 found.1 = .lt := hhead found hfound.mem
          rw [byFrequency_eq_then, hname]
          rcases Nat.lt_or_eq_of_le (Nat.le_of_not_lt hge) with hlt | heq
          · rw [Nat.compare_eq_lt.2 hlt]
            rfl
          · rw [Nat.compare_eq_eq.2 heq]
            rfl
        refine ⟨List.mem_cons_self, List.forall_mem_cons.2 ⟨hself, fun e' he' => ?_⟩⟩
        exact Std.TransCmp.isLE_trans hle (hfound.isLE e' he')

/-! ### The order of a walk -/

/-- The one of two entries that stays when the second is met: that one, unless the first is more
frequent. -/
def kept (a b : String × Nat) : String × Nat := if byFrequency a b = .lt then a else b

/-- The entry that stays is in front of both by frequency. -/
theorem kept_isLE (a b : String × Nat) :
    (byFrequency (kept a b) a).isLE = true ∧ (byFrequency (kept a b) b).isLE = true := by
  rw [kept]
  split
  next hlt => exact ⟨Std.ReflCmp.isLE_rfl, Ordering.isLE_iff_eq_lt_or_eq_eq.2 (.inl hlt)⟩
  next hge =>
    refine ⟨?_, Std.ReflCmp.isLE_rfl⟩
    rwa [← Std.OrientedCmp.isGE_iff_isLE, ← Ordering.ne_lt_iff_isGE]

/-- The entry that is left at the end of a walk. -/
def leader? : List (String × Nat) → Option (String × Nat)
  | [] => none
  | e :: rest => some (rest.foldl kept e)

/-- The entry that stays at the end of a walk is in front of all others, whatever the order of the
walk. -/
theorem isFirst_foldl_kept (e : String × Nat) (rest : List (String × Nat)) :
    IsFirst (e :: rest) (rest.foldl kept e) := by
  -- What was kept so far takes the place of the entry that the walk begins with.
  induction rest generalizing e with
  | nil => exact ⟨List.mem_singleton_self e, by simp [Std.ReflCmp.isLE_rfl]⟩
  | cons e' rest ih =>
    obtain ⟨hmem, hisLE⟩ := ih (kept e e')
    obtain ⟨hkept, hkept'⟩ := kept_isLE e e'
    rw [List.foldl_cons]
    constructor
    · have hor : kept e e' = e ∨ kept e e' = e' := by
        rw [kept]
        exact ite_eq_or_eq _ _ _
      grind
    · have hfirst := hisLE _ List.mem_cons_self
      rw [List.forall_mem_cons] at hisLE
      exact List.forall_mem_cons.2 ⟨Std.TransCmp.isLE_trans hfirst hkept,
        List.forall_mem_cons.2 ⟨Std.TransCmp.isLE_trans hfirst hkept', hisLE.2⟩⟩

/-- However a walk meets the entries, the same one is left. -/
theorem leader?_eq_mostCounted {walk entries : List (String × Nat)} (h : Assoc.Ascending entries)
    (hwalk : walk.Perm entries) : leader? walk = mostCounted entries := by
  -- Both results are the first of their entries, and there is only one first.
  cases hmost : mostCounted entries with
  | none =>
    rw [mostCounted_eq_none_iff] at hmost
    rw [hmost, List.perm_nil] at hwalk
    rw [hwalk, leader?]
  | some best =>
    have hbest := isFirst_mostCounted h hmost
    cases walk with
    | nil =>
      obtain rfl := List.nil_perm.1 hwalk
      cases hbest.mem
    | cons e rest =>
      obtain ⟨hmem, hisLE⟩ := isFirst_foldl_kept e rest
      have hfirst : IsFirst entries (rest.foldl kept e) :=
        ⟨hwalk.mem_iff.1 hmem, fun e he => hisLE e (hwalk.mem_iff.2 he)⟩
      rw [leader?, hfirst.eq hbest]

/-! ### Shares in exact arithmetic -/

/-- The elements that have a stored count under a condition, ascending. -/
def elements (d : Distribution) (given : String) : List String :=
  ((d.counts.get? given).map SortedMap.keys).getD []

variable {d : Distribution} {given : String}

/-- The elements under a condition are those with a stored count. -/
theorem mem_elements_iff {element : String} :
    element ∈ d.elements given ↔ (d.stored? given element).isSome = true := by
  rw [elements, stored?]
  cases d.counts.get? given with
  -- Nothing is stored under the key, so nothing is listed and nothing is found.
  | none => simp
  | some tally =>
    rw [Option.map_some, Option.getD_some, Option.bind_some, Option.isSome_iff_exists,
      SortedMap.keys, List.mem_map]
    simp only [SortedMap.get?_eq_some_iff]
    constructor
    · rintro ⟨⟨_, n⟩, he, rfl⟩
      exact ⟨n, he⟩
    · rintro ⟨n, he⟩
      exact ⟨(element, n), he, rfl⟩

/-- An element that is not stored has a count of zero. -/
theorem count_eq_zero_of_notMem {element : String} (h : element ∉ d.elements given) :
    d.count element given = 0 := by
  rw [mem_elements_iff, Option.not_isSome_iff_eq_none] at h
  rw [count_eq_getD, h, Option.getD_none]

/-- Under a condition the entries are the elements with their counts. -/
theorem mem_entries_iff {tally : Tally String} (h : d.counts.get? given = some tally)
    {element : String} {n : Nat} :
    (element, n) ∈ tally.entries ↔ element ∈ d.elements given ∧ d.count element given = n := by
  rw [mem_elements_iff, count_eq_getD, stored?, h, Option.bind_some, ← SortedMap.get?_eq_some_iff]
  cases tally.get? element <;> simp

/-- The total under a condition is the sum of the counts there. -/
theorem WellFormed.count_totals (h : WellFormed d) (given : String) :
    d.totals.count given = ((d.elements given).map fun element => d.count element given).sum := by
  rw [Tally.count, h.get?_totals, elements]
  simp only [count]
  cases d.counts.get? given with
  | none => rfl
  | some tally =>
    simp only [Option.map_some, Option.getD_some]
    exact Tally.total_eq_sum_count tally

/-- No count exceeds the total. -/
theorem WellFormed.count_le_total (h : WellFormed d) (element given : String) :
    d.count element given ≤ d.totals.count given := by
  by_cases hmem : element ∈ d.elements given
  · rw [h.count_totals]
    exact List.le_sum_of_mem (List.mem_map_of_mem hmem)
  · rw [count_eq_zero_of_notMem hmem]
    exact Nat.zero_le _

/-- Where the total is zero, the quotient by it is the share all the same. -/
theorem probability_real (d : Distribution) (element given : String) :
    (d.probability element given : ℝ) = d.count element given / d.totals.count given := by
  rw [probability]
  split
  next => rfl
  next hzero =>
    rw [Nat.eq_zero_of_not_pos hzero, Nat.cast_zero, div_zero]
    exact Nat.cast_zero

/-- Every share is between zero and one. -/
theorem WellFormed.probability_mem_Icc (h : WellFormed d) (element given : String) :
    (d.probability element given : ℝ) ∈ Set.Icc 0 1 := by
  have hle : (d.count element given : ℝ) ≤ d.totals.count given :=
    Nat.cast_le.2 (h.count_le_total element given)
  rw [probability_real]
  exact ⟨by positivity, div_le_one_of_le₀ hle (Nat.cast_nonneg _)⟩

/-- The shares under a condition with observations add up to one. -/
theorem WellFormed.sum_probability (h : WellFormed d) (hpos : 0 < d.totals.count given) :
    ((d.elements given).map fun element => (d.probability element given : ℝ)).sum = 1 := by
  have hne : (d.totals.count given : ℝ) ≠ 0 := by positivity
  simp only [probability_real, div_eq_mul_inv, List.sum_map_mul_right]
  rw [← div_eq_mul_inv, div_eq_one_iff_eq hne, h.count_totals, Nat.cast_list_sum, List.map_map]
  rfl

/-- Without observations every share is zero. -/
theorem probability_of_total_eq_zero (hzero : d.totals.count given = 0) (element : String) :
    (d.probability element given : ℝ) = 0 := by
  rw [probability_real, hzero, Nat.cast_zero, div_zero]

/-- Shares compare as the counts do. -/
theorem WellFormed.probability_le_iff (h : WellFormed d) {element element' : String} :
    (d.probability element given : ℝ) ≤ d.probability element' given
      ↔ d.count element given ≤ d.count element' given := by
  rw [probability_real, probability_real]
  rcases Nat.eq_zero_or_pos (d.totals.count given) with hzero | hpos
  · have hle := h.count_le_total element given
    rw [hzero] at hle ⊢
    simp [Nat.le_zero.1 hle]
  · rw [div_le_div_iff_of_pos_right (Nat.cast_pos.2 hpos), Nat.cast_le]

/-! ### The likeliest element -/

/-- The element has a stored count, none is likelier, and of the stored ones that are as likely it
comes first. -/
structure IsMostLikely (d : Distribution) (given element : String) : Prop where
  mem_elements : element ∈ d.elements given
  probability_le : ∀ other, (d.probability other given : ℝ) ≤ d.probability element given
  le : ∀ other ∈ d.elements given,
    (d.probability other given : ℝ) = d.probability element given → element ≤ other

/-- There is one likeliest element, since of equally likely ones the first counts. -/
theorem IsMostLikely.eq {a b : String} (ha : d.IsMostLikely given a) (hb : d.IsMostLikely given b) :
    a = b := by
  have heq := le_antisymm (ha.probability_le b) (hb.probability_le a)
  exact le_antisymm (ha.le b hb.mem_elements heq) (hb.le a ha.mem_elements heq.symm)

/-- The likeliest element, found by a walk through the entries of a condition. -/
def mostLikelyWalked? (d : Distribution) (walk : List (String × Nat) → List (String × Nat))
    (given : String) : Option String :=
  (d.counts.get? given).bind fun tally => (leader? (walk tally.entries)).map Prod.fst

/-- The likeliest element does not depend on the order in which the counts are met. -/
theorem mostLikelyWalked?_eq (d : Distribution)
    {walk : List (String × Nat) → List (String × Nat)}
    (hwalk : ∀ entries, (walk entries).Perm entries) (given : String) :
    d.mostLikelyWalked? walk given = d.mostLikely? given := by
  rw [mostLikelyWalked?, mostLikely?]
  simp only [leader?_eq_mostCounted (SortedMap.ascending _) (hwalk _)]

/-- There is no likeliest element if nothing was stored. -/
theorem WellFormed.mostLikely?_eq_none_iff (h : WellFormed d) :
    d.mostLikely? given = none ↔ ∀ element, d.stored? given element = none := by
  rw [← h.get?_counts_eq_none_iff, mostLikely?]
  have hfull := h.get?_counts given
  cases hget : d.counts.get? given with
  | none => simp
  | some tally =>
    have hentries : tally.entries ≠ [] := by
      intro hnil
      rw [hget, SortedMap.eq_of_entries (b := .empty) hnil] at hfull
      exact hfull rfl
    simpa [mostCounted_eq_none_iff] using hentries

/-- The element that is found is the likeliest. -/
theorem WellFormed.isMostLikely (h : WellFormed d) {element : String}
    (hmost : d.mostLikely? given = some element) : d.IsMostLikely given element := by
  rw [mostLikely?] at hmost
  obtain ⟨tally, htally, hmost⟩ := Option.bind_eq_some_iff.1 hmost
  obtain ⟨best, hbest, rfl⟩ := Option.map_eq_some_iff.1 hmost
  -- The entry chosen is the first by frequency; what follows restates that in probabilities.
  have hfirst := isFirst_mostCounted tally.ascending hbest
  obtain ⟨hmem, hcount⟩ := (mem_entries_iff htally).1 hfirst.mem
  have hother : ∀ other ∈ d.elements given, d.count other given ≤ best.2 ∧
      (d.count other given = best.2 → best.1 ≤ other) := fun other hlisted =>
    le_of_isLE_byFrequency (hfirst.isLE _ ((mem_entries_iff htally).2 ⟨hlisted, rfl⟩))
  constructor
  case mem_elements => exact hmem
  case probability_le =>
    intro other
    -- The total is common to all elements, so probabilities compare as counts do.
    rw [h.probability_le_iff, hcount]
    by_cases hlisted : other ∈ d.elements given
    · exact (hother other hlisted).1
    · rw [count_eq_zero_of_notMem hlisted]
      exact Nat.zero_le _
  case le =>
    intro other hlisted heq
    apply (hother other hlisted).2
    rw [← hcount]
    exact Nat.le_antisymm (h.probability_le_iff.1 heq.le) (h.probability_le_iff.1 heq.ge)

/-- An element is found if and only if it is the likeliest. -/
theorem WellFormed.mostLikely?_eq_some_iff (h : WellFormed d) {element : String} :
    d.mostLikely? given = some element ↔ d.IsMostLikely given element := by
  refine ⟨h.isMostLikely, fun hmost => ?_⟩
  cases hfound : d.mostLikely? given with
  | none =>
    have hstored := mem_elements_iff.1 hmost.mem_elements
    rw [h.mostLikely?_eq_none_iff.1 hfound element] at hstored
    cases hstored
  | some found => rw [(h.isMostLikely hfound).eq hmost]

/-! ### All distributions -/

/-- What holds of a distribution under one condition, in exact arithmetic. -/
structure Normalised (d : Distribution) (given : String) : Prop where
  total_eq : d.totals.count given
    = ((d.elements given).map fun element => d.count element given).sum
  probability_mem : ∀ element, (d.probability element given : ℝ) ∈ Set.Icc 0 1
  sum_eq_one : 0 < d.totals.count given →
    ((d.elements given).map fun element => (d.probability element given : ℝ)).sum = 1
  eq_zero : d.totals.count given = 0 → ∀ element, (d.probability element given : ℝ) = 0
  mostLikely_iff : ∀ element, d.mostLikely? given = some element ↔ d.IsMostLikely given element
  mostLikely_none_iff : d.mostLikely? given = none ↔ ∀ element, d.stored? given element = none
  /-- A search may meet the elements in any order. -/
  mostLikely_walked : ∀ walk : List (String × Nat) → List (String × Nat),
    (∀ entries, (walk entries).Perm entries) →
      d.mostLikelyWalked? walk given = d.mostLikely? given

/-- Under every condition the shares are those of a distribution whose totals are in step. -/
theorem WellFormed.normalised (h : WellFormed d) (given : String) : d.Normalised given where
  total_eq := h.count_totals given
  probability_mem element := h.probability_mem_Icc element given
  sum_eq_one := h.sum_probability
  eq_zero := probability_of_total_eq_zero
  mostLikely_iff _ := h.mostLikely?_eq_some_iff
  mostLikely_none_iff := h.mostLikely?_eq_none_iff
  mostLikely_walked _ hwalk := d.mostLikelyWalked?_eq hwalk given

/-- **Distributions stay normalised.** Take a distribution that a machine with words of 64 bits
makes, by additions of any counts and by merges, where the sums of what was observed under each
condition are below `2 ^ 64`. Each condition has the sum of its counts for its total and a likeliest
element where anything is stored, as `Normalised` says.

A merge adds up what two distributions store, in whatever order it takes the second one's
observations, if the sums of both together are below `2 ^ 64`. It is commutative then and, with the
sums of three together below `2 ^ 64`, associative. -/
theorem reachable_normalised {a : Distribution} {observed : List (String × String × Nat)}
    (ha : Made a observed) (hfits : ∀ given, sumUnder observed given < 2 ^ 64) :
    (∀ given, a.Normalised given) ∧
    ∀ b observed', Made b observed' →
      (∀ given, sumUnder (observed ++ observed') given < 2 ^ 64) →
      (∀ given element, (a.merge b).wrap.stored? given element
        = Option.merge (· + ·) (a.stored? given element) (b.stored? given element)) ∧
      (∀ walked : List (String × String × Nat), walked.Perm b.observations →
        (a.record walked).wrap = (a.merge b).wrap) ∧
      (a.merge b).wrap = (b.merge a).wrap ∧
      ∀ c observed'', Made c observed'' →
        (∀ given, sumUnder (observed ++ observed' ++ observed'') given < 2 ^ 64) →
        ((a.merge b).wrap.merge c).wrap = (a.merge (b.merge c).wrap).wrap := by
  have haRecord := ha.eq_record hfits
  have haWell : WellFormed a := haRecord ▸ WellFormed.empty.record observed
  refine ⟨haWell.normalised, fun b observed' hb hboth => ?_⟩
  have hbRecord := hb.eq_record (sumUnder_lt_of_append hboth).2
  have hbWell : WellFormed b := hbRecord ▸ WellFormed.empty.record observed'
  -- The merge of two distributions counts all that was observed in either, and that fits.
  have hmerge : (a.merge b).wrap = a.merge b := by
    rw [haRecord, hbRecord, merge_record_empty, wrap_record_empty hboth]
  refine ⟨?_, fun walked hwalked => ?_, ?_, fun c observed'' hc hall => ?_⟩
  · rw [hmerge]
    exact stored?_merge a b
  · rw [merge_eq_record, record_perm haWell hwalked]
  · rw [merge_comm haWell hbWell]
  · have hcRecord := hc.eq_record (sumUnder_lt_of_append hall).2
    have hlast : (b.merge c).wrap = b.merge c := by
      rw [List.append_assoc] at hall
      rw [hbRecord, hcRecord, merge_record_empty,
        wrap_record_empty (sumUnder_lt_of_append hall).2]
    rw [hmerge, hlast, merge_assoc haWell]

/-- A distribution that is merged into itself. A name that was counted zero times is stored and
stays so, without a share. -/
theorem reachable_normalised_zero :
    let observed : List (String × String × Nat) := [("n", "int", 1), ("k", "int", 0)]
    ∃ once twice : Distribution, Made once observed ∧ Made twice (observed ++ observed) ∧
      (∀ given, sumUnder (observed ++ observed ++ observed) given < 2 ^ 64) ∧
      twice = (once.merge once).wrap ∧ 0 < twice.totals.count "int" ∧
      twice.elements "int" = ["k", "n"] ∧
      ((twice.elements "int").map fun name => (twice.probability name "int" : ℝ)).sum = 1 ∧
      twice.mostLikely? "int" = some "n" ∧ twice.IsMostLikely "int" "n" ∧
      twice.mostLikely? "String" = none ∧ (∀ name, twice.stored? "String" name = none) ∧
      twice.mostLikelyWalked? List.reverse "int" = some "n" ∧
      (once.merge twice).wrap.stored? "int" "k" = some 0 ∧
      (once.merge twice).wrap = (twice.merge once).wrap := by
  intro observed
  let once : Distribution := ((empty.add "n" "int").wrap.addCount "k" "int" 0).wrap
  let twice : Distribution := (once.merge once).wrap
  have honce : Made once observed := (Made.empty.add "n" "int").addCount "k" "int" 0
  have htwice : Made twice (observed ++ observed) := honce.merge honce
  -- Only one key was observed; every other key has nothing under it.
  have hall : ∀ given, sumUnder (observed ++ observed ++ observed) given < 2 ^ 64 := by
    intro given
    by_cases hgiven : given = "int"
    · subst hgiven
      decide
    · have hzero : sumUnder (observed ++ observed ++ observed) given = 0 :=
        Tally.sumOf_eq_zero fun e he => by
          have hkey : e.1 = "int" := by
            revert e
            decide
          exact hkey.trans_ne (Ne.symm hgiven)
      rw [hzero]
      exact Nat.two_pow_pos 64
  have hpos : 0 < twice.totals.count "int" := by decide +kernel
  have hmost : twice.mostLikely? "int" = some "n" := by decide +kernel
  have hnone : twice.mostLikely? "String" = none := by decide +kernel
  have hboth := (sumUnder_lt_of_append hall).1
  obtain ⟨hnormalised, -⟩ := reachable_normalised htwice hboth
  obtain ⟨-, hmerges⟩ := reachable_normalised honce (sumUnder_lt_of_append hboth).1
  obtain ⟨hstored, -, hcomm, -⟩ := hmerges twice _ htwice (by rwa [← List.append_assoc])
  have hwalked := (hnormalised "int").mostLikely_walked _ List.reverse_perm
  refine ⟨once, twice, honce, htwice, hall, rfl, hpos, by decide +kernel,
    (hnormalised "int").sum_eq_one hpos, hmost, ((hnormalised "int").mostLikely_iff "n").1 hmost,
    hnone, (hnormalised "String").mostLikely_none_iff.1 hnone, hwalked.trans hmost, ?_, hcomm⟩
  rw [hstored]
  decide +kernel

end NaturalNames.Distribution
