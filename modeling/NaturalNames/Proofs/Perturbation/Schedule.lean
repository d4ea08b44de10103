import NaturalNames.Perturbation
import NaturalNames.Proofs.RankStats
import NaturalNames.Proofs.Scorer.Schedule

/-!
# `NaturalNames.Proofs.Perturbation.Schedule`: what perturbations measure depends on the occurrences

Every occurrence of a list is perturbed in turn, and the junk name is ranked among all names of the
list that are in the same scope. So each rank depends on the whole list, though the work is done on
chunks of it.

* `recordPerturbation_eq` takes the statistics out of it: an occurrence has a rank to record, or
  none (`perturbedRank?`).
* `perturbedRank?_eq_of_perm`: the rank does not depend on the order of the list, as the
  suggestions of a scope are sorted. Nor do occurrences count that cannot be read, as these are in
  other scopes.
* `perturbation_schedule` puts the two together with what is known of statistics.
-/

set_option autoImplicit false

namespace NaturalNames.Scorer

variable {α β : Type} [Arithmetic α] [Arithmetic β]

/-! ### The rank of a perturbed name -/

/-- The tokenizer refuses the snippet of an occurrence. -/
def Unreadable (scorer : Scorer α) (o : Occurrence) : Prop :=
  ∃ e, scorer.renamer.tokenizer.tokenize o.scope.snippet = .error e

/-- What is recorded of an occurrence: the rank of the junk name, if there is one. Nothing is
recorded of a snippet without tokens and of a suggestion that stands alone. -/
def perturbedRank? (scorer : Scorer α) (occurrences : List Occurrence) (junk : String)
    (o : Occurrence) : Option (Option Nat) :=
  match perturbScope scorer.renamer.tokenizer o.scope o.name junk with
  | .ok perturbed =>
    let identifiers := (scorer.suggestInTurn (perturbedGroup occurrences o perturbed junk)).map
      Suggestion.identifier
    if identifiers.length = 1 then none
    else some ((identifiers.findIdx? (· = junk)).map (· + 1))
  | .error _ => none

/-- An occurrence is recorded with its rank, if it has one. -/
theorem recordPerturbation_eq (scorer : Scorer α) (occurrences : List Occurrence) (junk : String)
    (stats : RankStats β) (o : Occurrence) :
    scorer.recordPerturbation occurrences junk stats o
      = (scorer.perturbedRank? occurrences junk o).elim stats stats.record := by
  rw [recordPerturbation, perturbedRank?]
  cases perturbScope scorer.renamer.tokenizer o.scope o.name junk with
  | error e => rfl
  | ok perturbed =>
    simp only [RankStats.recordSuggestions, RankStats.recordIdentifiers]
    split <;> rfl

/-- The ranks that are recorded of a list of occurrences, in order. -/
def perturbedRanks (scorer : Scorer α) (occurrences : List Occurrence) (junk : String) :
    List (Option Nat) :=
  occurrences.filterMap (scorer.perturbedRank? occurrences junk)

/-- To record perturbations is to record ranks. -/
theorem foldl_recordPerturbation (scorer : Scorer α) (occurrences : List Occurrence)
    (junk : String) (chunk : List Occurrence) (stats : RankStats β) :
    chunk.foldl (scorer.recordPerturbation occurrences junk) stats
      = (chunk.filterMap (scorer.perturbedRank? occurrences junk)).foldl RankStats.record
        stats := by
  rw [List.foldl_filterMap]
  congr
  funext stats o
  rw [recordPerturbation_eq]
  cases scorer.perturbedRank? occurrences junk o <;> rfl

/-! ### What a rank depends on -/

/-- An occurrence that cannot be read has no rank. -/
theorem perturbedRank?_eq_none {scorer : Scorer α} {o : Occurrence} (h : scorer.Unreadable o)
    (occurrences : List Occurrence) (junk : String) :
    scorer.perturbedRank? occurrences junk o = none := by
  obtain ⟨e, he⟩ := h
  have hperturb : perturbScope scorer.renamer.tokenizer o.scope o.name junk = .error e := by
    rw [perturbScope, Tokenizer.texts, he]
    rfl
  rw [perturbedRank?, hperturb]

section

variable {scorer : Scorer α} {kept removed occurrences : List Occurrence}

omit [Arithmetic α] in
/-- The occurrences in a scope that can be read are the same ones without those that cannot. -/
theorem perm_perturbedGroup (hperm : (kept ++ removed).Perm occurrences)
    (hremoved : ∀ o ∈ removed, scorer.Unreadable o) {o : Occurrence} (ho : ¬ scorer.Unreadable o)
    (perturbed : Scope) (junk : String) :
    (perturbedGroup kept o perturbed junk).Perm (perturbedGroup occurrences o perturbed junk) := by
  have hnone : removed.filter (fun other => other.scope = o.scope) = [] := by
    refine List.filter_eq_nil_iff.2 ?_
    intro other hother hscope
    obtain ⟨e, he⟩ := hremoved other hother
    exact ho ⟨e, of_decide_eq_true hscope ▸ he⟩
  have hfilter := hperm.filter fun other => other.scope = o.scope
  rw [List.filter_append, hnone, List.append_nil] at hfilter
  exact hfilter.map _

/-- Neither the order of the occurrences nor those that cannot be read change a rank. -/
theorem perturbedRank?_eq_of_perm (hperm : (kept ++ removed).Perm occurrences)
    (hremoved : ∀ o ∈ removed, scorer.Unreadable o) (junk : String) (o : Occurrence) :
    scorer.perturbedRank? kept junk o = scorer.perturbedRank? occurrences junk o := by
  by_cases ho : scorer.Unreadable o
  · rw [perturbedRank?_eq_none ho, perturbedRank?_eq_none ho]
  · rw [perturbedRank?, perturbedRank?]
    cases perturbScope scorer.renamer.tokenizer o.scope o.name junk with
    | error e => rfl
    | ok perturbed =>
      -- The suggestions of the two groups are the same, as they are sorted.
      have hgroup := perm_perturbedGroup hperm hremoved ho perturbed junk
      rw [← List.append_nil (perturbedGroup kept o perturbed junk)] at hgroup
      have hsuggestions := @suggestInTurn_eq_of_perm _ _ scorer _ _ _ hgroup (by simp)
      simp only [hsuggestions]

/-- So the ranks of both lists are the same, up to their order. -/
theorem perm_perturbedRanks (hperm : (kept ++ removed).Perm occurrences)
    (hremoved : ∀ o ∈ removed, scorer.Unreadable o) (junk : String) :
    (scorer.perturbedRanks kept junk).Perm (scorer.perturbedRanks occurrences junk) := by
  have hnone : removed.filterMap (scorer.perturbedRank? occurrences junk) = [] :=
    List.filterMap_eq_nil_iff.2 fun o ho => perturbedRank?_eq_none (hremoved o ho) occurrences junk
  have hranks := hperm.filterMap (scorer.perturbedRank? occurrences junk)
  rw [List.filterMap_append, hnone, List.append_nil] at hranks
  rwa [perturbedRanks, funext (perturbedRank?_eq_of_perm hperm hremoved junk)]

end

/-! ### Statistics -/

/-- What recording and merging keep holds of the statistics and the ranks of all occurrences. -/
theorem holds_evaluatePerturbations {holds : RankStats β → List (Option Nat) → Prop}
    (h : RankStats.KeptByRecording holds) (scorer : Scorer α) (machine : Machine)
    (occurrences : List Occurrence) (junk : String) :
    holds (scorer.evaluatePerturbations machine occurrences junk)
      (scorer.perturbedRanks occurrences junk) := by
  -- Each chunk records its own occurrences; the chunks put together again are the whole list.
  let chunks := Machine.splitEvery
    (Machine.chunkLength occurrences.length
      (Machine.chunkTarget machine.processors scorer.chunkFactor))
    occurrences
  have hmerged := h.merged (chunks.map fun chunk =>
    chunk.filterMap (scorer.perturbedRank? occurrences junk))
  have hflatten : (chunks.map fun chunk =>
      chunk.filterMap (scorer.perturbedRank? occurrences junk)).flatten
        = scorer.perturbedRanks occurrences junk := by
    rw [← List.filterMap_flatten, Machine.flatten_splitEvery]
    rfl
  rw [hflatten, List.map_map] at hmerged
  rw [evaluatePerturbations, Machine.mapChunks_eq_map]
  simp only [foldl_recordPerturbation]
  exact hmerged

/-- What recording keeps holds of a whole measurement. -/
theorem holds_foldl_recordPerturbation {holds : RankStats β → List (Option Nat) → Prop}
    (h : RankStats.KeptByRecording holds) (scorer : Scorer α) (occurrences : List Occurrence)
    (junk : String) :
    holds (occurrences.foldl (scorer.recordPerturbation occurrences junk) .empty)
      (scorer.perturbedRanks occurrences junk) := by
  rw [foldl_recordPerturbation]
  exact h.recorded _

/-- **What perturbations measure depends on the occurrences alone.** Take occurrences in any
order, and leave out any whose snippets cannot be read. On every machine and with every chunk
factor there are as many rankings, and as many hits up to each rank, as if all occurrences were
recorded one after the other in one place; and the hits are the ranks that are at most so great.
In exact arithmetic the reciprocals add up to the same, too, while the scores that the ranks come
of may be floats. -/
theorem perturbation_schedule (scorer : Scorer α) {kept removed occurrences : List Occurrence}
    (hperm : (kept ++ removed).Perm occurrences) (hremoved : ∀ o ∈ removed, scorer.Unreadable o)
    (machine : Machine) (factor : Nat) (junk : String) :
    (∀ (β : Type) [Arithmetic β] (stats inTurn : RankStats β),
      stats = { scorer with chunkFactor := factor }.evaluatePerturbations machine kept junk →
      inTurn = occurrences.foldl (scorer.recordPerturbation occurrences junk) .empty →
        stats.total = inTurn.total ∧ stats.hits = inTurn.hits ∧
          stats.Tallies (scorer.perturbedRanks occurrences junk)) ∧
    ({ scorer with chunkFactor := factor }.evaluatePerturbations machine kept junk : RankStats ℝ)
      = occurrences.foldl (scorer.recordPerturbation occurrences junk) .empty := by
  -- Order and unreadable occurrences reach the result through the multiset of ranks alone.
  have hranks := perm_perturbedRanks hperm hremoved junk
  constructor
  · rintro β _ stats inTurn rfl rfl
    have hstats := holds_evaluatePerturbations RankStats.keptByRecording_tallies
      { scorer with chunkFactor := factor } machine kept junk (β := β)
    have hturn := holds_foldl_recordPerturbation RankStats.keptByRecording_tallies scorer
      occurrences junk (β := β)
    obtain ⟨htotal, hhits⟩ := hstats.eq_of_perm hturn hranks
    refine ⟨htotal, hhits, ?_, ?_⟩
    · rw [htotal, hturn.total_eq]
    · intro k hk
      rw [hhits, hturn.hits_eq k hk]
  · -- In exact arithmetic the sum of reciprocals does not depend on the order either.
    have hstats := holds_evaluatePerturbations RankStats.keptByRecording_measures
      { scorer with chunkFactor := factor } machine kept junk
    have hturn := holds_foldl_recordPerturbation RankStats.keptByRecording_measures scorer
      occurrences junk
    exact hstats.eq_of_perm hturn hranks

/-- A name in a snippet that ends within a literal is neither ranked nor in the way: two names of
one snippet are perturbed in the other order on another machine. -/
theorem perturbation_schedule_open_literal :
    let scope := Scope.ofSnippet "x = y ;" .var
    let x : Occurrence := ⟨scope, "x"⟩
    let y : Occurrence := ⟨scope, "y"⟩
    let bad : Occurrence := ⟨.ofSnippet "z = \" ;" .var, "z"⟩
    ([y, x] ++ [bad]).Perm [x, bad, y] ∧ fussyScorer.Unreadable bad ∧
      ({ fussyScorer with chunkFactor := 1 }.evaluatePerturbations (.inTurn 1) [y, x] "j"
          : RankStats ℝ)
        = { fussyScorer with chunkFactor := 5 }.evaluatePerturbations (.inTurn 4) [x, bad, y]
            "j" := by
  intro scope x y bad
  have hperm : ([y, x] ++ [bad]).Perm [x, bad, y] := by decide
  have hbad : fussyScorer.Unreadable bad := ⟨_, by cbv⟩
  have hleft := perturbation_schedule fussyScorer hperm (by simpa using hbad) (.inTurn 1) 1 "j"
  have hfull := perturbation_schedule fussyScorer (.of_eq (List.append_nil [x, bad, y])) (by simp)
    (.inTurn 4) 5 "j"
  exact ⟨hperm, hbad, hleft.2.trans hfull.2.symm⟩

end NaturalNames.Scorer
