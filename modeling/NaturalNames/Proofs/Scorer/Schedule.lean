import NaturalNames.Proofs.Machine
import NaturalNames.Proofs.Renamer.Ranking
import NaturalNames.Proofs.Suggestion
import NaturalNames.Proofs.Threshold
import NaturalNames.Scorer

/-!
# `NaturalNames.Proofs.Scorer.Schedule`: a report depends on the occurrences alone

A report adds up gaps in the order of the suggestions, and in floats the order of a sum matters. It
is the same in every run all the same: the chunks are put together in order, the suggestions are
sorted before anything is added, and what the sorting does not look at is determined by what it
does look at, since the ranking of a name in a scope is a function of the two.

* `rankSuggestions_eq_suggestInTurn` takes machine and chunks away.
* `suggestInTurn_eq_of_perm` takes the order of the occurrences away, and the occurrences that no
  suggestion comes of.
* `scoring_schedule` says so of rankings and reports.
-/

set_option autoImplicit false

namespace NaturalNames.Scorer

variable {α : Type} [Arithmetic α]

/-! ### Single occurrences -/

/-- A renaming in the ranking leaves the name alone, so there is a score to compare the others
with. Without one the occurrence is passed over. -/
def Rankable (scorer : Scorer α) (o : Occurrence) : Prop :=
  ∃ r ∈ (scorer.renamer.rank o.scope o.name).toList,
    Ranking.keeps o.name scorer.thresholds.useUnknown r = true

instance (scorer : Scorer α) (o : Occurrence) : Decidable (scorer.Rankable o) :=
  inferInstanceAs (Decidable (∃ r ∈ _, _))

variable {scorer : Scorer α} {o : Occurrence}

/-- There is a suggestion for an occurrence that can be ranked. -/
theorem isSome_suggest_iff : (scorer.suggest o).isSome = true ↔ scorer.Rankable o := by
  rw [suggest, Option.isSome_map]
  exact Ranking.isSome_confidenceGap?_iff

/-- An occurrence that cannot be ranked has no suggestion. -/
theorem suggest_eq_none (h : ¬ scorer.Rankable o) : scorer.suggest o = none := by
  rwa [← isSome_suggest_iff, Option.not_isSome_iff_eq_none] at h

/-- A suggestion is one for its occurrence. -/
theorem occurrence_of_suggest {s : Suggestion α} (h : scorer.suggest o = some s) :
    s.occurrence = o := by
  obtain ⟨gap, -, rfl⟩ := Option.map_eq_some_iff.1 h
  rfl

/-! ### Lists of occurrences -/

/-- Chunked or not, the suggestions are those of the occurrences one after the other. -/
theorem rankSuggestions_eq_suggestInTurn (scorer : Scorer α) (machine : Machine)
    (occurrences : List Occurrence) :
    scorer.rankSuggestions machine occurrences = scorer.suggestInTurn occurrences := by
  have hchunks := machine.flatMap_mapChunks scorer.chunkFactor
    (fun chunk => chunk.filterMap scorer.suggest) id (fun o => (scorer.suggest o).toList)
    (fun chunk => List.filterMap_eq_flatMap_toList _ _) occurrences
  rw [rankSuggestions, List.flatten_eq_flatMap, hchunks, ← List.filterMap_eq_flatMap_toList,
    suggestInTurn]

/-- An occurrence has one suggestion. -/
theorem eq_of_mem_suggestions {occurrences : List Occurrence} {a b : Suggestion α}
    (ha : a ∈ occurrences.filterMap scorer.suggest) (hb : b ∈ occurrences.filterMap scorer.suggest)
    (hab : a.occurrence = b.occurrence) : a = b := by
  obtain ⟨o, -, ho⟩ := List.mem_filterMap.1 ha
  obtain ⟨o', -, ho'⟩ := List.mem_filterMap.1 hb
  rw [← occurrence_of_suggest ho, hab, occurrence_of_suggest ho', ho'] at ho
  exact (Option.some.inj ho).symm

/-- Occurrences can be rearranged, and those that cannot be ranked left out. -/
theorem suggestInTurn_eq_of_perm {kept removed occurrences : List Occurrence}
    (hperm : (kept ++ removed).Perm occurrences) (hremoved : ∀ o ∈ removed, ¬ scorer.Rankable o) :
    scorer.suggestInTurn kept = scorer.suggestInTurn occurrences := by
  have hnone : removed.filterMap scorer.suggest = [] :=
    List.filterMap_eq_nil_iff.2 fun o ho => suggest_eq_none (hremoved o ho)
  have hsuggestions : (kept.filterMap scorer.suggest).Perm
      (occurrences.filterMap scorer.suggest) := by
    simpa only [List.filterMap_append, hnone, List.append_nil] using hperm.filterMap scorer.suggest
  exact Suggestion.sort_eq_of_perm hsuggestions fun a ha b hb => eq_of_mem_suggestions ha hb

/-- **Rankings and reports depend on the occurrences alone.** Take the occurrences of a snippet in
any order, and leave out any that cannot be ranked. On every machine and with every chunk factor
the suggestions are those of the full list one occurrence after the other, and the report, filtered
or not, is the one made of these. -/
theorem scoring_schedule (scorer : Scorer α) {kept removed occurrences : List Occurrence}
    (hperm : (kept ++ removed).Perm occurrences) (hremoved : ∀ o ∈ removed, ¬ scorer.Rankable o)
    (machine : Machine) (factor : Nat) (filter : Bool) :
    { scorer with chunkFactor := factor }.rankSuggestions machine kept
        = scorer.suggestInTurn occurrences ∧
      { scorer with chunkFactor := factor }.scoreOccurrences machine kept filter
        = scorer.aggregate filter (scorer.suggestInTurn occurrences) := by
  have hranked : { scorer with chunkFactor := factor }.rankSuggestions machine kept
      = scorer.suggestInTurn occurrences := by
    rw [rankSuggestions_eq_suggestInTurn, ← suggestInTurn_eq_of_perm hperm hremoved]
    -- One after the other, no chunk factor is read.
    rfl
  refine ⟨hranked, ?_⟩
  rw [scoreOccurrences, hranked]
  rfl

/-- Scores with a model that finds the name `bad` impossible. -/
def fussyScorer : Scorer Float where
  renamer := Renamer.fussyRenamer
  extractor := .flat .code .var
  thresholds := { useUnknown := false }

/-- One of three occurrences has no score, and the report is that on the two others in the other
order. -/
theorem scoring_schedule_fussy :
    let x : Occurrence := ⟨.ofSnippet "int x ;" .var, "x"⟩
    let y : Occurrence := ⟨.ofSnippet "y = 1 ;" .var, "y"⟩
    let bad : Occurrence := ⟨.ofSnippet "int bad ;" .var, "bad"⟩
    ([y, x] ++ [bad]).Perm [x, bad, y] ∧ ¬ fussyScorer.Rankable bad ∧
      { fussyScorer with chunkFactor := 1 }.scoreOccurrences (.inTurn 1) [y, x] true
        = { fussyScorer with chunkFactor := 5 }.scoreOccurrences (.inTurn 4) [x, bad, y] true := by
  intro x y bad
  have hperm : ([y, x] ++ [bad]).Perm [x, bad, y] := by decide
  -- Renaming to `bad` has probability zero, so the name is missing from its own ranking.
  have hbad : ¬ fussyScorer.Rankable bad := by
    have htokens : fussyScorer.renamer.tokenizer.texts "int bad ;" = .ok ["int", "bad", ";"] := by
      cbv
    have hranks := Renamer.ranksScorable_rank bad.scope bad.name htokens
    have hname := mt (hranks.mem_names_iff "bad").1 (mt And.right (by decide +kernel))
    rintro ⟨r, hr, hkeeps⟩
    refine hname (List.mem_map.2 ⟨r, hr, ?_⟩)
    simpa [Ranking.keeps, fussyScorer, bad] using hkeeps
  refine ⟨hperm, hbad, ?_⟩
  -- Both runs are compared with the one that takes the occurrences in turn.
  have hleft := scoring_schedule fussyScorer hperm (by simpa using hbad) (.inTurn 1) 1 true
  have hfull := scoring_schedule fussyScorer (.of_eq (List.append_nil [x, bad, y])) (by simp)
    (.inTurn 4) 5 true
  exact hleft.2.trans hfull.2.symm

end NaturalNames.Scorer
