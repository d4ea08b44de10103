import NaturalNames.Number.SignedFloat
import NaturalNames.Proofs.Number.TotalOrder
import NaturalNames.Proofs.Threshold

/-!
# `NaturalNames.Proofs.Threshold.Loosening`: a ranking cut off at a looser setting

A higher threshold and a greater rank leave a longer first part of a ranking
(`worthReporting_prefix`). That does not settle what is reported, as the symbol for unknown names
may be put back in one of two runs, in both or in none, and takes away the names behind it. A name
that is reported is in the first part and, where the symbol was put back, before it
(`mem_applyThreshold_iff`). Both survive a looser setting: a longer first part keeps a symbol that
it had, and a symbol that is put back moves up with the threshold (`loosened_of_looser`).

A setting is looser in two senses. What is at most the one threshold has to be at most the other,
and the symbol at the one threshold must not come behind the symbol at the other. For floats both
follow from the total order.
-/

set_option autoImplicit false

namespace NaturalNames.Ranking

variable {α : Type} [Arithmetic α] {ranking : Ranking α} {threshold threshold' : α}
  {maxRank maxRank' : Nat}

/-- Every name of one ranking is in the other one, with the same score. The symbol for unknown names
is left out of account. -/
def Loosened (strict loose : Ranking α) : Prop :=
  ∀ r ∈ strict.toList, r.name ≠ unknownSymbol → r ∈ loose.toList

/-- A name is reported if it is in the first part and not behind a symbol that was put back. -/
theorem mem_applyThreshold_iff {r : Renaming α} (hr : r.name ≠ unknownSymbol) :
    r ∈ (applyThreshold ranking threshold maxRank).toList ↔
      r ∈ (worthReporting ranking threshold maxRank).toList ∧
        (UnknownKept ranking threshold maxRank ∨
          compare r (unknownAt ranking threshold) = .lt) := by
  by_cases hkept : UnknownKept ranking threshold maxRank
  · simp [applyThreshold_of_kept hkept, hkept]
  · have hne : r ≠ unknownAt ranking threshold := by
      rintro rfl
      exact hr rfl
    simp [toList_applyThreshold_of_cut hkept, hkept, hne]

section

variable (hle : ∀ x, x ≤ threshold → x ≤ threshold') (hrank : maxRank ≤ maxRank')
include hle hrank

/-- Looser thresholds leave a longer first part of the ranking. -/
theorem worthReporting_prefix (ranking : Ranking α) :
    (worthReporting ranking threshold maxRank).toList
      <+: (worthReporting ranking threshold' maxRank').toList := by
  -- Within what is at most the higher threshold, the lower one cuts off a first part.
  have hfront : (ranking.toList.takeWhile fun r => r.score ≤ threshold)
      <+: ranking.toList.takeWhile fun r => r.score ≤ threshold' := by
    have htwice := List.takeWhile_prefix (fun r : Renaming α => decide (r.score ≤ threshold))
      (l := ranking.toList.takeWhile fun r => r.score ≤ threshold')
    rw [List.takeWhile_takeWhile] at htwice
    convert htwice using 3 with r
    simpa using hle r.score
  exact (hfront.take maxRank).trans (List.take_prefix_take_left hrank)

/-- A looser setting reports every name again. -/
theorem loosened_of_looser (horder : (Arithmetic.order threshold threshold').isLE) :
    Loosened (applyThreshold ranking threshold maxRank)
      (applyThreshold ranking threshold' maxRank') := by
  have hfirst := worthReporting_prefix hle hrank ranking
  have hsymbol : (compare (unknownAt ranking threshold) (unknownAt ranking threshold')).isLE := by
    rw [Renaming.compare_eq_then, unknownAt, unknownAt, Std.ReflOrd.compare_self, Ordering.then_eq]
    exact horder
  intro r hmem hr
  rw [mem_applyThreshold_iff hr] at hmem ⊢
  refine ⟨hfirst.subset hmem.1, hmem.2.imp ?_ ?_⟩
  · rintro ⟨unknown, hunknown, his⟩
    exact ⟨unknown, hfirst.subset hunknown, his⟩
  · exact fun hlt => Std.TransCmp.lt_of_lt_of_isLE hlt hsymbol

end

/-! ### Rankings in floats -/

section

open Number

/-- **A looser setting hides no name.** If the threshold is not lowered in the total order, and does
not become NaN, and if the greatest rank is not lowered either, then every name that was reported
still is, with the score that it had. The symbol for unknown names may come, go or move. The scores
of the ranking are any floats, also those of NaN that tell its sign, and it may hold the symbol more
than once. -/
theorem applyThreshold_loosened :
    (∀ (ranking : Ranking Float) (threshold threshold' : Float) (maxRank maxRank' : Nat),
      threshold'.isNaN = false → (totalCompare threshold threshold').isLE → maxRank ≤ maxRank' →
      Loosened (applyThreshold ranking threshold maxRank)
        (applyThreshold ranking threshold' maxRank')) ∧
    ∀ (ranking : Ranking SignedFloat) (threshold threshold' : Float) (maxRank maxRank' : Nat),
      threshold'.isNaN = false → (totalCompare threshold threshold').isLE → maxRank ≤ maxRank' →
      Loosened (applyThreshold ranking (.ofFloat threshold) maxRank)
        (applyThreshold ranking (.ofFloat threshold') maxRank') := by
  constructor
  · intro ranking threshold threshold' maxRank maxRank' hnumber' horder hrank
    have hle (x : Float) (hx : x ≤ threshold) : x ≤ threshold' :=
      le_of_le_of_totalCompare hx hnumber' horder
    exact loosened_of_looser hle hrank horder
  · intro ranking threshold threshold' maxRank maxRank' hnumber' horder hrank
    have hle (x : SignedFloat) (hx : x.value ≤ threshold) : x.value ≤ threshold' :=
      le_of_le_of_totalCompare hx hnumber' horder
    refine loosened_of_looser hle hrank ?_
    -- The places of both thresholds move up by one, to leave room for a negative NaN.
    show (compare (SignedFloat.ofFloat threshold).key (SignedFloat.ofFloat threshold').key).isLE
    rw [SignedFloat.key_ofFloat, SignedFloat.key_ofFloat, Nat.isLE_compare]
    exact Nat.succ_le_succ (Nat.isLE_compare.1 horder)

/-- Two names that tie, and one far above them. -/
def tiedNames (α : Type) [Arithmetic α] : Ranking α :=
  let score (x : Float) : α := Arithmetic.ofFloat x
  SortedSet.ofList [⟨"zed", score 6, 2, none⟩, ⟨"b", score 2, 2, none⟩, ⟨"B", score 2, 2, none⟩,
    ⟨"a", score 1, 2, none⟩]

/-- The symbol is put back at both settings, where it takes away `b` and `zed`. What comes before it
stays. -/
theorem applyThreshold_loosened_tiedNames :
    (∃ r ∈ (applyThreshold (tiedNames Float) 2 3).toList,
      r.name = "B" ∧ r ∈ (applyThreshold (tiedNames Float) 6 4).toList) ∧
    ∃ r ∈ (applyThreshold (tiedNames SignedFloat) (.ofFloat 2) 3).toList,
      r.name = "B" ∧ r ∈ (applyThreshold (tiedNames SignedFloat) (.ofFloat 6) 4).toList := by
  constructor
  · -- `B` is kept at its score of the stricter threshold; over signed floats the same holds.
    have hreported : "B" ∈ (applyThreshold (tiedNames Float) 2 3).toList.map Renaming.name := by
      decide +kernel
    obtain ⟨r, hr, hname⟩ := List.mem_map.1 hreported
    have hother : r.name ≠ unknownSymbol := by
      rw [hname]
      decide
    exact ⟨r, hr, hname, applyThreshold_loosened.1 (tiedNames Float) 2 6 3 4 (by decide) (by decide)
      (by decide) r hr hother⟩
  · have hreported : "B" ∈
        (applyThreshold (tiedNames SignedFloat) (.ofFloat 2) 3).toList.map Renaming.name := by
      decide +kernel
    obtain ⟨r, hr, hname⟩ := List.mem_map.1 hreported
    have hother : r.name ≠ unknownSymbol := by
      rw [hname]
      decide
    exact ⟨r, hr, hname, applyThreshold_loosened.2 (tiedNames SignedFloat) 2 6 3 4 (by decide)
      (by decide) (by decide) r hr hother⟩

end

end NaturalNames.Ranking
