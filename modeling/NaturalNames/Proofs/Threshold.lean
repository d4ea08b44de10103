import NaturalNames.Proofs.Ordered.Set
import NaturalNames.Proofs.Number.Real
import NaturalNames.Proofs.Renaming
import NaturalNames.Threshold

/-!
# `NaturalNames.Proofs.Threshold`: a ranking cut off at a threshold

Cutting a ranking keeps a first part of it (`worthReporting`). What `applyThreshold` makes of it has
one of two forms, and everything else follows from these:

* the first part itself, if it has the symbol for unknown names (`applyThreshold_of_kept`), or
* what of the first part comes before the symbol at the threshold, and behind it the symbol
  (`toList_applyThreshold_of_cut`).

So no renaming is above the threshold, and there is one more than the greatest rank at most.

`gapUpTo` is the gap in a ranking that was cut, where the current name may be missing. It lies
between zero and the distance of the best renaming from the threshold.
-/

set_option autoImplicit false

namespace NaturalNames.ThresholdConfig

/-- Thresholds and floor of a valid configuration are numbers. -/
theorem isFinite_of_validate {config : ThresholdConfig} (h : config.validate = .ok ()) :
    (∀ kind, Number.isFinite (config.thresholdFor kind) = true) ∧
      Number.isFinite config.reportingFloor = true := by
  rw [validate] at h
  split at h
  next => cases h
  next hnone =>
    -- The check went through all settings without finding one that is not finite.
    have hfinite : ∀ setting ∈ config.finiteSettings, Number.isFinite setting.2 = true := by
      intro setting hsetting
      simpa using List.find?_eq_none.1 hnone setting hsetting
    simp only [finiteSettings, List.forall_mem_cons] at hfinite
    obtain ⟨hvar, hmethod, htype, hfloor, -⟩ := hfinite
    refine ⟨fun kind => ?_, hfloor⟩
    cases kind with
    | var => exact hvar
    | method => exact hmethod
    | type => exact htype

end NaturalNames.ThresholdConfig

namespace NaturalNames.Ranking

variable {α : Type} [Arithmetic α] {ranking : Ranking α} {threshold : α} {maxRank : Nat}

/-! ### Cutting -/

/-- No more renamings are worth reporting than the rank allows. -/
theorem length_worthReporting_le :
    (worthReporting ranking threshold maxRank).toList.length ≤ maxRank :=
  List.length_take_le _ _

/-- No renaming that is worth reporting has a score above the threshold. -/
theorem score_le_of_mem_worthReporting {r : Renaming α}
    (h : r ∈ (worthReporting ranking threshold maxRank).toList) : r.score ≤ threshold := by
  -- The threshold cuts before the rank does, so what is left passed the threshold.
  have hfront : r ∈ ranking.toList.takeWhile fun r => r.score ≤ threshold := List.mem_of_mem_take h
  have hscore := List.mem_takeWhile_imp hfront
  exact of_decide_eq_true hscore

/-- What is worth reporting is a first part of the ranking. -/
theorem worthReporting_isPrefix :
    (worthReporting ranking threshold maxRank).toList <+: ranking.toList :=
  -- Each of the two cuts, by rank and by score, keeps a first part.
  (List.take_prefix _ _).trans (List.takeWhile_prefix _)

/-- The symbol for unknown names is in the first part. -/
def UnknownKept (ranking : Ranking α) (threshold : α) (maxRank : Nat) : Prop :=
  ∃ r ∈ (worthReporting ranking threshold maxRank).toList, r.isUnknown = true

/-- If the first part has the symbol for unknown names, it is what is left. -/
theorem applyThreshold_of_kept (h : UnknownKept ranking threshold maxRank) :
    applyThreshold ranking threshold maxRank = worthReporting ranking threshold maxRank := by
  rw [applyThreshold, if_pos (List.any_eq_true.2 h)]

/-- Else the symbol is put back at the threshold, behind the renamings that come before it there. -/
theorem toList_applyThreshold_of_cut (h : ¬ UnknownKept ranking threshold maxRank) :
    (applyThreshold ranking threshold maxRank).toList =
      ((worthReporting ranking threshold maxRank).toList.filter fun r =>
        compare r (unknownAt ranking threshold) = .lt) ++ [unknownAt ranking threshold] := by
  rw [applyThreshold, if_neg (mt List.any_eq_true.1 h)]
  refine SortedSet.toList_insert_of_forall_lt fun r hr => ?_
  exact of_decide_eq_true (List.mem_filter.1 hr).2

/-- The symbol that is put back is the symbol. -/
theorem isUnknown_unknownAt : (unknownAt ranking threshold).isUnknown = true :=
  decide_eq_true rfl

/-- After cutting off, the symbol for unknown names is among the renamings. -/
theorem exists_isUnknown_applyThreshold :
    ∃ r ∈ (applyThreshold ranking threshold maxRank).toList, r.isUnknown = true := by
  by_cases h : UnknownKept ranking threshold maxRank
  · rwa [applyThreshold_of_kept h]
  · rw [toList_applyThreshold_of_cut h]
    exact ⟨_, List.mem_append_right _ (List.mem_singleton_self _), isUnknown_unknownAt⟩

/-- What holds of the first part and of the symbol at the threshold holds of what is left. -/
theorem forall_mem_applyThreshold {p : Renaming α → Prop}
    (h : ∀ r ∈ (worthReporting ranking threshold maxRank).toList, p r)
    (hunknown : p (unknownAt ranking threshold)) :
    ∀ r ∈ (applyThreshold ranking threshold maxRank).toList, p r := by
  intro r hr
  by_cases hkept : UnknownKept ranking threshold maxRank
  · rw [applyThreshold_of_kept hkept] at hr
    exact h r hr
  · rw [toList_applyThreshold_of_cut hkept, List.mem_append, List.mem_singleton] at hr
    rcases hr with hr | rfl
    · exact h r (List.mem_of_mem_filter hr)
    · exact hunknown

/-- No renaming is above a threshold that is a number. -/
theorem score_le_of_mem_applyThreshold (hrefl : threshold ≤ threshold) {r : Renaming α}
    (hr : r ∈ (applyThreshold ranking threshold maxRank).toList) : r.score ≤ threshold :=
  forall_mem_applyThreshold (p := fun r => r.score ≤ threshold)
    (fun _ => score_le_of_mem_worthReporting) hrefl r hr

/-- After cutting off there are as many renamings as the rank allows, and the symbol. -/
theorem length_applyThreshold_le :
    (applyThreshold ranking threshold maxRank).toList.length ≤ maxRank + 1 := by
  have hlength : (worthReporting ranking threshold maxRank).toList.length ≤ maxRank :=
    length_worthReporting_le
  by_cases h : UnknownKept ranking threshold maxRank
  · rw [applyThreshold_of_kept h]
    omega
  · rw [toList_applyThreshold_of_cut h, List.length_append, List.length_singleton]
    have hfilter := List.length_filter_le
      (fun r => decide (compare r (unknownAt ranking threshold) = .lt))
      (worthReporting ranking threshold maxRank).toList
    omega

/-- There are more renamings than the greatest rank only if the symbol for unknown names was cut
off. -/
theorem unknown_cut_of_maxRank_lt
    (h : maxRank < (applyThreshold ranking threshold maxRank).toList.length) :
    ¬ UnknownKept ranking threshold maxRank ∧
      unknownAt ranking threshold ∈ (applyThreshold ranking threshold maxRank).toList := by
  have hcut : ¬ UnknownKept ranking threshold maxRank := by
    intro hkept
    rw [applyThreshold_of_kept hkept] at h
    exact absurd length_worthReporting_le (Nat.not_le.2 h)
  refine ⟨hcut, ?_⟩
  rw [toList_applyThreshold_of_cut hcut]
  exact List.mem_append_right _ (List.mem_singleton_self _)

/-! ### Gaps -/

variable {current : String} {useUnknown : Bool}

/-- There is a gap if some renaming leaves the name alone. -/
theorem isSome_confidenceGap?_iff :
    (ranking.confidenceGap? current useUnknown).isSome = true ↔
      ∃ r ∈ ranking.toList, keeps current useUnknown r = true := by
  rw [confidenceGap?, SortedSet.first?]
  cases ranking.toList with
  | nil => simp
  | cons top rest =>
    rw [List.head?_cons, Option.bind_some, Option.isSome_map, List.find?_isSome]

/-- The score of the best renaming, or the threshold if there is none. -/
def topScore (ranking : Ranking α) (threshold : α) : α :=
  (ranking.first?.map Renaming.score).getD threshold

/-- The score of the first renaming that leaves the name alone, or the threshold if none does. -/
def keepScore (ranking : Ranking α) (threshold : α) (current : String) (useUnknown : Bool) : α :=
  ((ranking.toList.find? (keeps current useUnknown)).map Renaming.score).getD threshold

/-- The gap in a ranking that was cut off at a threshold: a name that was cut counts as one at the
threshold. -/
def gapUpTo (ranking : Ranking α) (threshold : α) (current : String) (useUnknown : Bool) : α :=
  ranking.keepScore threshold current useUnknown - ranking.topScore threshold

/-- A gap that is missing is made up for by the threshold in place of the name. -/
theorem getD_confidenceGap? :
    (ranking.confidenceGap? current useUnknown).getD (threshold - ranking.topScore threshold)
      = ranking.gapUpTo threshold current useUnknown := by
  rw [gapUpTo, keepScore, topScore, confidenceGap?, SortedSet.first?]
  cases ranking.toList with
  | nil => rfl
  | cons top rest =>
    rw [List.head?_cons, Option.bind_some]
    cases (top :: rest).find? (keeps current useUnknown) <;> rfl

/-! ### Exact scores -/

section Exact

variable {ranking : Ranking ℝ} {threshold : ℝ} {r : Renaming ℝ}

/-- In real arithmetic the scores of a ranking ascend. -/
theorem pairwise_score_le (ranking : Ranking ℝ) :
    ranking.toList.Pairwise fun a b => a.score ≤ b.score := by
  refine ranking.ascending.imp fun {a b} h => ?_
  rcases Renaming.compare_eq_lt_iff.1 h with hlt | ⟨heq, -⟩
  · exact (compare_lt_iff_lt.1 hlt).le
  · exact (compare_eq_iff_eq.1 heq).le

/-- Where all that satisfies `p` comes first, the part before the first that fails is all of it. -/
private theorem takeWhile_eq_filter {β : Type} {p : β → Bool} {list : List β}
    (h : list.Pairwise fun a b => p b = true → p a = true) : list.takeWhile p = list.filter p := by
  induction list with
  | nil => rfl
  | cons a rest ih =>
    obtain ⟨hfirst, hrest⟩ := List.pairwise_cons.1 h
    by_cases ha : p a = true
    · rw [List.takeWhile_cons_of_pos ha, List.filter_cons_of_pos ha, ih hrest]
    · rw [List.takeWhile_cons_of_neg ha, List.filter_cons_of_neg ha]
      exact (List.filter_eq_nil_iff.2 fun b hb hpb => ha (hfirst b hb hpb)).symm

/-- A ranking cut off holds those of the first `maxRank` renamings that are not above the
threshold. -/
theorem mem_worthReporting_iff :
    r ∈ (worthReporting ranking threshold maxRank).toList ↔
      r ∈ ranking.toList.take maxRank ∧ r.score ≤ threshold := by
  have hfirst : (ranking.toList.take maxRank).Pairwise fun a b =>
      decide (b.score ≤ threshold) = true → decide (a.score ≤ threshold) = true := by
    refine ((pairwise_score_le ranking).sublist (List.take_sublist _ _)).imp fun {a b} hab hb => ?_
    exact decide_eq_true (hab.trans (of_decide_eq_true hb))
  show r ∈ (ranking.toList.takeWhile fun r => r.score ≤ threshold).take maxRank ↔ _
  rw [List.take_takeWhile, takeWhile_eq_filter hfirst, List.mem_filter, decide_eq_true_iff]

/-- The best score is at most any other. -/
theorem topScore_le (hr : r ∈ ranking.toList) : ranking.topScore threshold ≤ r.score := by
  have hascending := pairwise_score_le ranking
  rw [topScore, SortedSet.first?]
  cases hlist : ranking.toList with
  | nil => simp [hlist] at hr
  | cons top rest =>
    rw [hlist, List.pairwise_cons] at hascending
    rw [hlist] at hr
    rcases List.mem_cons.1 hr with rfl | hr
    · exact le_rfl
    · exact hascending.1 r hr

variable (hle : ∀ r ∈ ranking.toList, r.score ≤ threshold)
include hle

/-- The name counts as one at the threshold at most. -/
theorem keepScore_le : ranking.keepScore threshold current useUnknown ≤ threshold := by
  rw [keepScore]
  cases hfind : ranking.toList.find? (keeps current useUnknown) with
  | none => exact le_rfl
  | some r => exact hle r (List.mem_of_find?_eq_some hfind)

/-- The best score is at most the threshold. -/
theorem topScore_le_threshold : ranking.topScore threshold ≤ threshold := by
  rw [topScore]
  cases hfirst : ranking.first? with
  | none => exact le_rfl
  | some r => exact hle r (List.mem_of_mem_head? hfirst)

/-- The best score is at most that of the name. -/
theorem topScore_le_keepScore :
    ranking.topScore threshold ≤ ranking.keepScore threshold current useUnknown := by
  rw [keepScore]
  cases hfind : ranking.toList.find? (keeps current useUnknown) with
  | none => exact topScore_le_threshold hle
  | some r => exact topScore_le (List.mem_of_find?_eq_some hfind)

/-- A gap is not negative. -/
theorem gapUpTo_nonneg : 0 ≤ ranking.gapUpTo threshold current useUnknown :=
  sub_nonneg.2 (topScore_le_keepScore hle)

/-- No gap is greater than that of a name at the threshold. -/
theorem gapUpTo_le :
    ranking.gapUpTo threshold current useUnknown ≤ threshold - ranking.topScore threshold :=
  sub_le_sub_right (keepScore_le hle) _

end Exact

end NaturalNames.Ranking
