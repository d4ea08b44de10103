import NaturalNames.Proofs.Scorer.Schedule

/-!
# `NaturalNames.Proofs.Scorer.Report`: what a filtered report says

A filtered report cuts every ranking off at the threshold of its kind, computes the gap anew and
leaves out what does not exceed the floor. Two gaps are involved: the one before the cut decides
only whether there is a suggestion at all, and the one after it is what is reported and added up.

* `perm_occurrence_rankSuggestions` and `perm_occurrence_reported` say which occurrences get a
  suggestion and which of them are reported. This holds in any type of numbers.
* `Filtered` is what holds of a reported suggestion where scores are exact, and `filtered_report`
  says so of all of them.
-/

set_option autoImplicit false

namespace NaturalNames.Scorer

section

variable {α : Type} [Arithmetic α] {scorer : Scorer α} {o : Occurrence} {s : Suggestion α}

/-! ### Suggestions and occurrences -/

/-- Each occurrence that can be ranked gives one suggestion, so suggestions can be counted by
occurrences. -/
theorem map_occurrence_filter_suggest {p : Suggestion α → Bool} {q : Occurrence → Bool}
    (hpq : ∀ o s, scorer.suggest o = some s → p s = q o) (occurrences : List Occurrence) :
    ((occurrences.filterMap scorer.suggest).filter p).map Suggestion.occurrence
      = occurrences.filter fun o => decide (scorer.Rankable o) && q o := by
  induction occurrences with
  | nil => rfl
  | cons o rest ih =>
    cases hsuggest : scorer.suggest o with
    | none =>
      -- An occurrence without a suggestion is left out on both sides.
      have hrankable : ¬ scorer.Rankable o := by simp [← isSome_suggest_iff, hsuggest]
      rw [List.filterMap_cons_none hsuggest, ih, List.filter_cons_of_neg (by simp [hrankable])]
    | some s =>
      -- One with a suggestion stays where the filter on suggestions, read as one on occurrences,
      -- keeps it.
      have hrankable : scorer.Rankable o := by simp [← isSome_suggest_iff, hsuggest]
      rw [List.filterMap_cons_some hsuggest, List.filter_cons, List.filter_cons, hpq o s hsuggest]
      simp only [hrankable, decide_true, Bool.true_and]
      split
      · rw [List.map_cons, ih, occurrence_of_suggest hsuggest]
      · exact ih

/-- The greatest score of a renaming in a report, for names of one kind. -/
def threshold (scorer : Scorer α) (kind : NameKind) : α :=
  Arithmetic.ofFloat (scorer.thresholds.thresholdFor kind)

/-- What the ranking of an occurrence is cut down to. -/
def cutRanking (scorer : Scorer α) (o : Occurrence) : Ranking α :=
  Ranking.applyThreshold (scorer.renamer.rank o.scope o.name) (scorer.threshold o.scope.kind)
    scorer.thresholds.maxRank

/-- The gap in the ranking of an occurrence, after that was cut down. -/
def cutGap (scorer : Scorer α) (o : Occurrence) : α :=
  (scorer.cutRanking o).gapUpTo (scorer.threshold o.scope.kind) o.name scorer.thresholds.useUnknown

/-- What is reported of an occurrence has the ranking and the gap that were cut down. -/
theorem cutDown_of_suggest (h : scorer.suggest o = some s) :
    scorer.cutDown s = ⟨o.name, o.scope, scorer.cutRanking o, scorer.cutGap o⟩ := by
  obtain ⟨gap, -, rfl⟩ := Option.map_eq_some_iff.1 h
  rw [cutDown, cutGap, ← Ranking.getD_confidenceGap?]
  rfl

/-! ### Reported occurrences -/

/-- Each occurrence that can be ranked has one suggestion. -/
theorem perm_occurrence_rankSuggestions (scorer : Scorer α) (machine : Machine)
    (occurrences : List Occurrence) :
    ((scorer.rankSuggestions machine occurrences).map Suggestion.occurrence).Perm
      (occurrences.filter fun o => scorer.Rankable o) := by
  have hmap := scorer.map_occurrence_filter_suggest (p := fun _ => true) (q := fun _ => true)
    (fun _ _ _ => rfl) occurrences
  simp only [List.filter_true, Bool.and_true] at hmap
  rw [rankSuggestions_eq_suggestInTurn, suggestInTurn, ← hmap]
  exact (Suggestion.perm_sort _).map _

/-- The suggestions of a filtered report, before they are sorted. -/
def reported (scorer : Scorer α) (occurrences : List Occurrence) : List (Suggestion α) :=
  ((scorer.suggestInTurn occurrences).map scorer.cutDown).filter scorer.isReported

/-- A filtered report is made of the suggestions that pass. -/
theorem scoreOccurrences_eq (scorer : Scorer α) (machine : Machine)
    (occurrences : List Occurrence) :
    scorer.scoreOccurrences machine occurrences true = {
      suggestions := Suggestion.sort (scorer.reported occurrences)
      score := (scorer.reported occurrences).foldl (fun sum s => sum + s.gap)
        (Arithmetic.ofNat 0) } := by
  rw [scoreOccurrences, rankSuggestions_eq_suggestInTurn]
  rfl

/-- A suggestion of the report has its cut ranking and gap, and the gap is above the floor. -/
theorem of_mem_reported {occurrences : List Occurrence} (h : s ∈ scorer.reported occurrences) :
    s.renamings = scorer.cutRanking s.occurrence ∧ s.gap = scorer.cutGap s.occurrence ∧
      Arithmetic.ofFloat scorer.thresholds.reportingFloor < s.gap := by
  obtain ⟨hcut, hwide⟩ := List.mem_filter.1 h
  obtain ⟨full, hfull, rfl⟩ := List.mem_map.1 hcut
  obtain ⟨o, -, ho⟩ := List.mem_filterMap.1 ((Suggestion.perm_sort _).mem_iff.1 hfull)
  refine ⟨?_, ?_, of_decide_eq_true hwide⟩ <;> rw [cutDown_of_suggest ho] <;> rfl

/-- An occurrence is reported as often as it occurs, if it can be ranked and its gap is wide
enough after the cut. -/
theorem perm_occurrence_reported (scorer : Scorer α) (occurrences : List Occurrence) :
    ((scorer.reported occurrences).map Suggestion.occurrence).Perm
      (occurrences.filter fun o => scorer.Rankable o ∧
        Arithmetic.ofFloat scorer.thresholds.reportingFloor < scorer.cutGap o) := by
  let wide (o : Occurrence) : Bool :=
    Arithmetic.ofFloat scorer.thresholds.reportingFloor < scorer.cutGap o
  have hwide : ∀ o s, scorer.suggest o = some s →
      (scorer.isReported ∘ scorer.cutDown) s = wide o := by
    intro o s hs
    rw [Function.comp, isReported, cutDown_of_suggest hs]
  have hmap := map_occurrence_filter_suggest hwide occurrences
  simp only [Bool.decide_and]
  rw [← hmap, reported, List.filter_map, List.map_map]
  exact ((Suggestion.perm_sort _).filter _).map _

end

/-! ### Exact scores -/

/-- What holds of a suggestion in a filtered report, where scores are exact. -/
structure Filtered (scorer : Scorer ℝ) (s : Suggestion ℝ) : Prop where
  renamings_eq : s.renamings = scorer.cutRanking s.occurrence
  score_le : ∀ r ∈ s.renamings.toList, r.score ≤ scorer.threshold s.scope.kind
  exists_isUnknown : ∃ r ∈ s.renamings.toList, r.isUnknown = true
  length_le : s.renamings.toList.length ≤ scorer.thresholds.maxRank + 1
  /-- There are more renamings than the greatest rank only where the symbol for unknown names is
  not among the first of the ranking, or above the threshold. Then it is put back. -/
  unknown_cut : scorer.thresholds.maxRank < s.renamings.toList.length →
    (∀ r ∈ (scorer.renamer.rank s.scope s.identifier).toList.take scorer.thresholds.maxRank,
      r.isUnknown = true → scorer.threshold s.scope.kind < r.score) ∧
    ∃ r ∈ s.renamings.toList, r.isUnknown = true ∧ r.score = scorer.threshold s.scope.kind
  /-- The gap is the distance of two scores: that of the best renaming and that of the first one
  that leaves the name alone, which is the threshold if there is none. -/
  gap_eq : s.gap = s.renamings.keepScore (scorer.threshold s.scope.kind) s.identifier
      scorer.thresholds.useUnknown - s.renamings.topScore (scorer.threshold s.scope.kind)
  gap_nonneg : 0 ≤ s.gap
  gap_le : s.gap ≤ scorer.threshold s.scope.kind -
    s.renamings.topScore (scorer.threshold s.scope.kind)
  floor_lt : Arithmetic.ofFloat scorer.thresholds.reportingFloor < s.gap

/-- So it has passed the filter. -/
theorem filtered_of_mem_reported {scorer : Scorer ℝ} {occurrences : List Occurrence}
    {s : Suggestion ℝ} (h : s ∈ scorer.reported occurrences) : scorer.Filtered s := by
  obtain ⟨hrenamings, hgap, hfloor⟩ := of_mem_reported h
  -- The cut comes first: the other bounds are about the renamings it leaves.
  have hle : ∀ r ∈ s.renamings.toList, r.score ≤ scorer.threshold s.scope.kind := by
    rw [hrenamings]
    exact fun r => Ranking.score_le_of_mem_applyThreshold le_rfl
  rw [cutGap, ← hrenamings] at hgap
  refine {
    renamings_eq := hrenamings
    score_le := hle
    exists_isUnknown := ?_
    length_le := ?_
    unknown_cut := fun hlong => ?_
    gap_eq := hgap
    gap_nonneg := ?_
    gap_le := ?_
    floor_lt := hfloor }
  · rw [hrenamings]
    exact Ranking.exists_isUnknown_applyThreshold
  · rw [hrenamings]
    exact Ranking.length_applyThreshold_le
  · rw [hrenamings] at hlong ⊢
    -- A ranking longer than the rank lost its symbol to the cut; it is put back at the threshold.
    obtain ⟨hcut, hback⟩ := Ranking.unknown_cut_of_maxRank_lt hlong
    refine ⟨fun r hr hunknown => ?_, _, hback, Ranking.isUnknown_unknownAt, rfl⟩
    by_contra hscore
    exact hcut ⟨r, Ranking.mem_worthReporting_iff.2 ⟨hr, not_lt.1 hscore⟩, hunknown⟩
  · rw [hgap]
    exact Ranking.gapUpTo_nonneg hle
  · rw [hgap]
    exact Ranking.gapUpTo_le hle

/-- The score of a report is the sum of its gaps. -/
theorem score_eq_sum (scorer : Scorer ℝ) (machine : Machine) (occurrences : List Occurrence) :
    (scorer.scoreOccurrences machine occurrences true).score
      = ((scorer.scoreOccurrences machine occurrences true).suggestions.map
        Suggestion.gap).sum := by
  rw [scoreOccurrences_eq, ((Suggestion.perm_sort _).map _).sum_eq, List.sum_eq_foldl,
    List.foldl_map, Arithmetic.ofNat_real, Nat.cast_zero]

/-- **What a filtered report says.** With exact scores, whatever the scorer and the occurrences:
every suggestion is cut off as `Filtered` says; an occurrence is reported once for each time that it
is ranked, if its gap after the cut exceeds the floor; the widest gap comes first, and of equal gaps
the lesser identifier and scope; and the score is the sum of the gaps. Thresholds have to be valid
only so that each is the number that its float stands for. -/
theorem filtered_report (scorer : Scorer ℝ) (machine : Machine) (occurrences : List Occurrence) :
    let report := scorer.scoreOccurrences machine occurrences true
    (∀ s ∈ report.suggestions, scorer.Filtered s) ∧
    ((scorer.rankSuggestions machine occurrences).map Suggestion.occurrence).Perm
      (occurrences.filter fun o => scorer.Rankable o) ∧
    (report.suggestions.map Suggestion.occurrence).Perm
      (occurrences.filter fun o => scorer.Rankable o ∧
        Arithmetic.ofFloat scorer.thresholds.reportingFloor < scorer.cutGap o) ∧
    (report.suggestions.Pairwise fun a b => b.gap < a.gap ∨
      b.gap = a.gap ∧ (a.identifier < b.identifier ∨
        a.identifier = b.identifier ∧ (compare a.scope b.scope).isLE = true)) ∧
    report.score = (report.suggestions.map Suggestion.gap).sum := by
  intro report
  -- A report is what is reported of each occurrence, sorted; sorting moves nothing in or out.
  have hsuggestions : report.suggestions = Suggestion.sort (scorer.reported occurrences) := by
    rw [show report = _ from scorer.scoreOccurrences_eq machine occurrences]
  refine ⟨?_, scorer.perm_occurrence_rankSuggestions machine occurrences, ?_, ?_,
    scorer.score_eq_sum machine occurrences⟩
  · intro s hs
    rw [hsuggestions, (Suggestion.perm_sort _).mem_iff] at hs
    exact filtered_of_mem_reported hs
  · rw [hsuggestions]
    exact ((Suggestion.perm_sort _).map _).trans (scorer.perm_occurrence_reported occurrences)
  · rw [hsuggestions]
    refine (Suggestion.pairwise_sort _).imp fun {a b} h => ?_
    exact h.imp compare_lt_iff_lt.1 (And.imp_left compare_eq_iff_eq.1)

end NaturalNames.Scorer
