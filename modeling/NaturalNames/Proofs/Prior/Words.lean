import NaturalNames.Proofs.Ordered.Words
import NaturalNames.Proofs.Prior.Distribution

/-!
# `NaturalNames.Proofs.Prior.Words`: distributions of 64 bits

Any count may be added to a distribution, and a distribution may be merged into itself, so sums grow
as fast as a caller likes. A machine keeps the counts and the totals in words of 64 bits, both
modulo `2 ^ 64` (`wrap`). `Made` relates the distributions of such a machine to what was observed on
the way.

If what was observed under each condition adds up to less than `2 ^ 64`, the machine has the
distribution that counts all observations in a row (`Made.eq_record`). Sums only grow on the way, so
none of them left its word before.
-/

set_option autoImplicit false

namespace NaturalNames.Distribution

/-- The distribution with all counts and totals modulo `2 ^ 64`. -/
def wrap (d : Distribution) : Distribution := ⟨d.counts.mapValues Tally.wrap, d.totals.wrap⟩

/-- Words hold a distribution if they hold its totals. -/
theorem WellFormed.wrap_eq_self {d : Distribution} (h : WellFormed d)
    (hlt : ∀ given, d.totals.count given < 2 ^ 64) : d.wrap = d := by
  have hcounts : d.counts.mapValues Tally.wrap = d.counts := by
    refine SortedMap.mapValues_eq_self fun e he => Tally.wrap_eq_self fun n hn => ?_
    -- A count is part of the total of its condition.
    have htotal : d.totals.count e.1 = e.2.total := by
      rw [Tally.count, h.get?_totals, SortedMap.get?_eq_some_iff.2 he]
      rfl
    have hlisted : n.2 ≤ e.2.total := List.le_sum_of_mem (List.mem_map_of_mem hn)
    exact Nat.lt_of_le_of_lt hlisted (htotal ▸ hlt e.1)
  have htotals : d.totals.wrap = d.totals := by
    refine Tally.wrap_eq_self fun e he => ?_
    have hcount : d.totals.count e.1 = e.2 := by
      rw [Tally.count, SortedMap.get?_eq_some_iff.2 he, Option.getD_some]
    exact hcount ▸ hlt e.1
  rw [wrap, hcounts, htotals]

/-! ### What was observed -/

/-- The sum of the counts of all observations under a condition. -/
def sumUnder (observations : List (String × String × Nat)) (given : String) : Nat :=
  Tally.sumOf (observations.map Prod.snd) given

/-- What is observed in two parts adds up under each condition. -/
theorem sumUnder_append (front back : List (String × String × Nat)) (given : String) :
    sumUnder (front ++ back) given = sumUnder front given + sumUnder back given := by
  rw [sumUnder, sumUnder, sumUnder, Tally.sumOf, Tally.sumOf, Tally.sumOf, List.map_append,
    List.map_append, List.sum_append]

/-- Where words hold the sums of all observations, they hold those of a part. -/
theorem sumUnder_lt_of_append {front back : List (String × String × Nat)}
    (h : ∀ given, sumUnder (front ++ back) given < 2 ^ 64) :
    (∀ given, sumUnder front given < 2 ^ 64) ∧ ∀ given, sumUnder back given < 2 ^ 64 := by
  simp only [sumUnder_append] at h
  exact ⟨fun given => Nat.lt_of_le_of_lt (Nat.le_add_right _ _) (h given),
    fun given => Nat.lt_of_le_of_lt (Nat.le_add_left _ _) (h given)⟩

/-- The total of a condition grows by what is observed under it. -/
theorem count_totals_record (d : Distribution) (observations : List (String × String × Nat))
    (given : String) :
    (d.record observations).totals.count given
      = d.totals.count given + sumUnder observations given := by
  -- Induction on the observations, with the distribution general since each one changes it.
  induction observations generalizing d with
  | nil => rfl
  | cons o rest ih =>
    obtain ⟨element, given', n⟩ := o
    have hsum : sumUnder ((element, given', n) :: rest) given
        = (if given' = given then n else 0) + sumUnder rest given := Tally.sumOf_cons _ _ _
    have hadd : (d.addCount element given' n).totals.count given
        = if given = given' then d.totals.count given' + n else d.totals.count given :=
      Tally.count_add d.totals given' given n
    show ((d.addCount element given' n).record rest).totals.count given = _
    rw [ih, hadd, hsum]
    by_cases hgiven : given = given'
    · subst hgiven
      rw [if_pos rfl, if_pos rfl, Nat.add_assoc]
    · rw [if_neg hgiven, if_neg (Ne.symm hgiven), Nat.zero_add]

/-- Observations whose sums are below `2 ^ 64` are held by words. -/
theorem wrap_record_empty {observations : List (String × String × Nat)}
    (hlt : ∀ given, sumUnder observations given < 2 ^ 64) :
    (empty.record observations).wrap = empty.record observations := by
  refine (WellFormed.empty.record observations).wrap_eq_self fun given => ?_
  rw [count_totals_record]
  show 0 + _ < _
  rw [Nat.zero_add]
  exact hlt given

/-- The distributions that a machine with words of 64 bits makes, with all that was observed on the
way. A distribution may be merged into itself; its observations are then observed again. -/
inductive Made : Distribution → List (String × String × Nat) → Prop
  | empty : Made .empty []
  | add {d : Distribution} {observations : List (String × String × Nat)}
      (h : Made d observations) (element given : String) :
      Made (d.add element given).wrap (observations ++ [(element, given, 1)])
  | addCount {d : Distribution} {observations : List (String × String × Nat)}
      (h : Made d observations) (element given : String) (n : Nat) :
      Made (d.addCount element given n).wrap (observations ++ [(element, given, n)])
  | merge {a b : Distribution} {observations observations' : List (String × String × Nat)}
      (ha : Made a observations) (hb : Made b observations') :
      Made (a.merge b).wrap (observations ++ observations')

/-- Counting two lists of observations apart and merging is counting them in a row. -/
theorem merge_record_empty (observations observations' : List (String × String × Nat)) :
    (empty.record observations).merge (empty.record observations')
      = empty.record (observations ++ observations') := by
  rw [merge_record (WellFormed.empty.record observations), record_append]

/-- As long as sums stay in their words, what is made is what was observed. -/
theorem Made.eq_record {d : Distribution} {observations : List (String × String × Nat)}
    (h : Made d observations) (hlt : ∀ given, sumUnder observations given < 2 ^ 64) :
    d = Distribution.empty.record observations := by
  -- Below the bound the reduction to words changes nothing, at any step of the history.
  induction h with
  | empty => rfl
  | add _ element given ih | addCount _ element given _ ih =>
    rw [ih (sumUnder_lt_of_append hlt).1]
    conv_rhs => rw [← wrap_record_empty hlt, record_append]
    rfl
  | merge _ _ iha ihb =>
    obtain ⟨hfront, hback⟩ := sumUnder_lt_of_append hlt
    rw [iha hfront, ihb hback, merge_record_empty, wrap_record_empty hlt]

end NaturalNames.Distribution
