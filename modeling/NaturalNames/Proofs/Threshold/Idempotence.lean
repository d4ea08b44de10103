import NaturalNames.Number.SignedFloat
import NaturalNames.Proofs.Number.Bits
import NaturalNames.Proofs.Threshold

/-!
# `NaturalNames.Proofs.Threshold.Idempotence`: a ranking cut off twice

A ranking that was cut off stays as it is when it is cut off again at the same threshold. Where the
first part had the symbol for unknown names this is plain: the first part of a first part is all of
it (`worthReporting_worthReporting`). Where the symbol was put back, one of two things happens the
second time (`worthReporting_applyThreshold_of_cut`). Either it is kept, and with it the ranking as
a whole. Or it is cut off again, by the greatest rank or by a threshold that is NaN, and then it is
put back behind the same renamings.

What is put back is the same symbol, its scope included (`unknownAt_applyThreshold_of_cut`), since
the ranking begins as it did before.

One fact about the numbers is used. A threshold is at most itself or, being NaN, has no score that
is at most it (`Number.le_self_or_forall_not_le`). `CutsOff` is what holds of the result, and
`applyThreshold_cutsOff` says so for both types of floats in which rankings are computed.
-/

set_option autoImplicit false

namespace NaturalNames.Ranking

variable {α : Type} [Arithmetic α] {ranking : Ranking α} {threshold : α} {maxRank : Nat}

/-! ### First parts of first parts -/

/-- What is worth reporting are the first renamings up to the threshold, as many as the rank
allows. -/
theorem toList_worthReporting (ranking : Ranking α) (threshold : α) (maxRank : Nat) :
    (worthReporting ranking threshold maxRank).toList
      = (ranking.toList.takeWhile fun r => r.score ≤ threshold).take maxRank := rfl

/-- Where nothing is above the threshold only the rank cuts. -/
theorem toList_worthReporting_of_forall_le (h : ∀ r ∈ ranking.toList, r.score ≤ threshold) :
    (worthReporting ranking threshold maxRank).toList = ranking.toList.take maxRank := by
  rw [toList_worthReporting, List.takeWhile_eq_self_iff.2 fun r hr => decide_eq_true (h r hr)]

/-- A threshold that nothing is at most leaves nothing. -/
theorem toList_worthReporting_of_forall_not_le (h : ∀ x, ¬ x ≤ threshold) :
    (worthReporting ranking threshold maxRank).toList = [] :=
  List.eq_nil_iff_forall_not_mem.2 fun _ hr => h _ (score_le_of_mem_worthReporting hr)

/-- What is worth reporting of that is all of it. -/
theorem worthReporting_worthReporting :
    worthReporting (worthReporting ranking threshold maxRank) threshold maxRank
      = worthReporting ranking threshold maxRank := by
  refine SortedSet.eq_of_toList ?_
  rw [toList_worthReporting_of_forall_le fun r => score_le_of_mem_worthReporting,
    List.take_of_length_le length_worthReporting_le]

/-- A first part with the symbol stays as it is when it is cut off again. -/
theorem applyThreshold_applyThreshold_of_kept (h : UnknownKept ranking threshold maxRank) :
    applyThreshold (applyThreshold ranking threshold maxRank) threshold maxRank
      = applyThreshold ranking threshold maxRank := by
  have hagain : UnknownKept (worthReporting ranking threshold maxRank) threshold maxRank := by
    rwa [UnknownKept, worthReporting_worthReporting]
  rw [applyThreshold_of_kept h, applyThreshold_of_kept hagain, worthReporting_worthReporting]

/-! ### The symbol put back -/

/-- What stays before the symbol for unknown names when that is put back. -/
def beforeUnknown (ranking : Ranking α) (threshold : α) (maxRank : Nat) : List (Renaming α) :=
  (worthReporting ranking threshold maxRank).toList.filter fun r =>
    compare r (unknownAt ranking threshold) = .lt

/-- What stays before the symbol is before it. -/
theorem beforeUnknown_eq_filter (ranking : Ranking α) (threshold : α) (maxRank : Nat) :
    beforeUnknown ranking threshold maxRank
      = (beforeUnknown ranking threshold maxRank).filter fun r =>
        compare r (unknownAt ranking threshold) = .lt := by
  rw [beforeUnknown, List.filter_filter]
  simp only [Bool.and_self]

/-- Before the symbol there are no more renamings than the rank allows. -/
theorem length_beforeUnknown_le : (beforeUnknown ranking threshold maxRank).length ≤ maxRank :=
  Nat.le_trans (List.length_filter_le _ _) length_worthReporting_le

/-- If anything stays before the symbol then the first renaming does. -/
theorem head?_beforeUnknown (h : beforeUnknown ranking threshold maxRank ≠ []) :
    (beforeUnknown ranking threshold maxRank).head? = ranking.first? := by
  have hfirst : (worthReporting ranking threshold maxRank).toList <+: ranking.toList :=
    worthReporting_isPrefix
  have hascending := (worthReporting ranking threshold maxRank).ascending
  rw [beforeUnknown] at h ⊢
  rw [SortedSet.first?]
  cases hlist : (worthReporting ranking threshold maxRank).toList with
  | nil => simp [hlist] at h
  | cons top rest =>
    rw [hlist] at h hfirst hascending
    have htop : compare top (unknownAt ranking threshold) = .lt := by
      by_contra hnot
      refine h (List.filter_eq_nil_iff.2 fun r hr hlt => hnot ?_)
      rcases List.mem_cons.1 hr with rfl | hr
      · exact of_decide_eq_true hlt
      · -- The first renaming comes before the one that stays.
        exact Std.TransCmp.lt_trans ((List.pairwise_cons.1 hascending).1 r hr)
          (of_decide_eq_true hlt)
    obtain ⟨behind, hbehind⟩ := hfirst
    rw [← hbehind, List.filter_cons, if_pos (decide_eq_true htop)]
    rfl

variable (hcut : ¬ UnknownKept ranking threshold maxRank)
include hcut

/-- The symbol would be put back with the same scope again. -/
theorem unknownAt_applyThreshold_of_cut :
    unknownAt (applyThreshold ranking threshold maxRank) threshold
      = unknownAt ranking threshold := by
  rw [unknownAt, SortedSet.first?, toList_applyThreshold_of_cut hcut, ← beforeUnknown]
  by_cases hnil : beforeUnknown ranking threshold maxRank = []
  · rw [hnil]
    rfl
  · rw [List.head?_append_of_ne_nil _ hnil, head?_beforeUnknown hnil]
    rfl

/-- The second time the symbol is either kept with the whole ranking, or cut off behind the same
renamings. -/
theorem worthReporting_applyThreshold_of_cut
    (hthreshold : threshold ≤ threshold ∨ ∀ x, ¬ x ≤ threshold) :
    let result := applyThreshold ranking threshold maxRank
    worthReporting result threshold maxRank = result ∨
      (worthReporting result threshold maxRank).toList
        = beforeUnknown ranking threshold maxRank := by
  intro result
  have hresult : result.toList
      = beforeUnknown ranking threshold maxRank ++ [unknownAt ranking threshold] :=
    toList_applyThreshold_of_cut hcut
  rcases hthreshold with hself | hnone
  · have htake : (worthReporting result threshold maxRank).toList = result.toList.take maxRank :=
      toList_worthReporting_of_forall_le fun r => score_le_of_mem_applyThreshold hself
    rcases Nat.lt_or_ge (beforeUnknown ranking threshold maxRank).length maxRank with hlt | hge
    · refine .inl (SortedSet.eq_of_toList ?_)
      rw [htake, List.take_of_length_le (by simpa [hresult] using hlt)]
    · -- The rank leaves no place for the symbol.
      refine .inr ?_
      rw [htake, hresult, List.take_left' (Nat.le_antisymm length_beforeUnknown_le hge)]
  · refine .inr ?_
    rw [toList_worthReporting_of_forall_not_le hnone, beforeUnknown,
      toList_worthReporting_of_forall_not_le hnone]
    rfl

/-- Where the symbol was put back, cutting off again changes nothing. -/
theorem applyThreshold_applyThreshold_of_cut
    (hthreshold : threshold ≤ threshold ∨ ∀ x, ¬ x ≤ threshold) :
    applyThreshold (applyThreshold ranking threshold maxRank) threshold maxRank
      = applyThreshold ranking threshold maxRank := by
  rcases worthReporting_applyThreshold_of_cut hcut hthreshold with hsame | hbefore
  · have hkept : UnknownKept (applyThreshold ranking threshold maxRank) threshold maxRank := by
      rw [UnknownKept, hsame]
      exact exists_isUnknown_applyThreshold
    rw [applyThreshold_of_kept hkept, hsame]
  · have hcut' : ¬ UnknownKept (applyThreshold ranking threshold maxRank) threshold maxRank := by
      rw [UnknownKept, hbefore]
      exact fun ⟨r, hr, hunknown⟩ => hcut ⟨r, (List.mem_filter.1 hr).1, hunknown⟩
    refine SortedSet.eq_of_toList ?_
    rw [toList_applyThreshold_of_cut hcut', hbefore, unknownAt_applyThreshold_of_cut hcut,
      ← beforeUnknown_eq_filter, toList_applyThreshold_of_cut hcut, ← beforeUnknown]

omit hcut

/-! ### Rankings in floats -/

/-- What a ranking is cut off to. The first part is what comes before the first renaming whose score
is not at most the threshold, and no more than `maxRank` of it. -/
structure CutsOff (ranking : Ranking α) (threshold : α) (maxRank : Nat) (result : Ranking α) :
    Prop where
  /-- Cut off again, it stays as it is. -/
  again : applyThreshold result threshold maxRank = result
  /-- A first part with the symbol for unknown names is the result. -/
  kept :
    let front := (ranking.toList.takeWhile fun r => r.score ≤ threshold).take maxRank
    (∃ r ∈ front, r.name = unknownSymbol) → result.toList = front
  /-- To a first part without it the symbol is added, at the threshold and for no contexts. What
  does not come before it is left out. -/
  cut :
    let front := (ranking.toList.takeWhile fun r => r.score ≤ threshold).take maxRank
    let unknown : Renaming α := ⟨unknownSymbol, threshold, 0, ranking.first?.bind Renaming.scope⟩
    (∀ r ∈ front, r.name ≠ unknownSymbol) →
      result.toList = (front.filter fun r => compare r unknown = .lt) ++ [unknown]

/-- Cutting off keeps its promises at every threshold that is a number, and at one that no score is
at most. -/
theorem cutsOff_of_le_self_or (hthreshold : threshold ≤ threshold ∨ ∀ x, ¬ x ≤ threshold) :
    CutsOff ranking threshold maxRank (applyThreshold ranking threshold maxRank) where
  again := by
    by_cases h : UnknownKept ranking threshold maxRank
    · exact applyThreshold_applyThreshold_of_kept h
    · exact applyThreshold_applyThreshold_of_cut h hthreshold
  kept := by
    rintro front ⟨r, hr, hname⟩
    rw [applyThreshold_of_kept ⟨r, hr, decide_eq_true hname⟩]
    rfl
  cut := by
    intro front unknown hnone
    exact toList_applyThreshold_of_cut fun ⟨r, hr, hname⟩ => hnone r hr (of_decide_eq_true hname)

/-- **Cutting off is idempotent.** Of every ranking, at every threshold and for every greatest rank,
the result is the first part as it is or with the symbol for unknown names put back, and cut off
again it does not change: no score, no number of contexts and no scope. The threshold may be NaN,
where the symbol alone is left. -/
theorem applyThreshold_cutsOff :
    (∀ (ranking : Ranking Float) threshold maxRank,
      CutsOff ranking threshold maxRank (applyThreshold ranking threshold maxRank)) ∧
    ∀ (ranking : Ranking Number.SignedFloat) threshold maxRank,
      CutsOff ranking threshold maxRank (applyThreshold ranking threshold maxRank) := by
  constructor
  · exact fun _ threshold _ => cutsOff_of_le_self_or (Number.le_self_or_forall_not_le threshold)
  · intro ranking threshold maxRank
    refine cutsOff_of_le_self_or ?_
    exact (Number.le_self_or_forall_not_le threshold.value).imp_right fun h x => h x.value

/-- Of two names that tie at the threshold the one that comes after the symbol goes. -/
example :
    let ranking : Ranking Float :=
      SortedSet.ofList [⟨"zed", 6, 2, none⟩, ⟨"T", 6, 2, none⟩, ⟨"a", 1, 2, none⟩]
    (applyThreshold ranking 6 3).toList.map Renaming.name = ["a", "T", unknownSymbol] := by
  decide +kernel

end NaturalNames.Ranking
