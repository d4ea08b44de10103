import Mathlib
import NaturalNames.Proofs.Backoff.Marks
import NaturalNames.Proofs.Renamer.ByPosition
import NaturalNames.Proofs.Renamer.Occurrences
import NaturalNames.Proofs.Renamer.Pool
import NaturalNames.Proofs.Scorer.Report

/-!
# `NaturalNames.Proofs.Scorer.Unseen`: without evidence there is no report

An occurrence says that a name stands in a snippet. What if it does not? Then there are no contexts
to look for names in, and a model of n-grams finds none. The two names that are candidates in any
case are scored by themselves. With some priors one of them has a better score than the other; but
both leave the name alone, as long as the symbol for unknown names counts as doing so.

So whatever comes first in the ranking leaves the name alone, and the gap is the distance of a score
from itself (`confidenceGap?_of_keeps`). A cut at a threshold does not change that: all that it can
add is the symbol (`cutGap_eq_zero`). In floats the distance is `0` for a score that is finite, and
no floor is below that unless it is negative.

`silent_of_unseen` says so. What is not reported can be left out of the occurrences altogether
(`aggregate_suggestInTurn_filter_ne`).
-/

set_option autoImplicit false

namespace NaturalNames

/-! ### No contexts -/

/-- A name that no token holds has no contexts. -/
theorem nameContexts_eq_empty {name : String} {tokens : List String}
    (h : ∀ token ∈ tokens, isOccurrence name token = false) (order : Nat) :
    nameContexts order name tokens = .empty := by
  -- No token is an occurrence, so there is no position to take contexts around.
  have hpositions : occurrencePositions name tokens = .empty := by
    have hnone : ∀ i : Nat, tokens[i]?.any (isOccurrence name) = false := by
      intro i
      rw [← Bool.not_eq_true, Option.any_eq_true]
      rintro ⟨token, htoken, hname⟩
      rw [h token (List.mem_of_getElem? htoken)] at hname
      cases hname
    simp only [occurrencePositions, hnone]
    rw [List.filter_false]
    rfl
  rw [nameContexts, hpositions]
  rfl

/-! ### Rankings in which all leave the name alone -/

namespace Ranking

variable {α : Type} [Arithmetic α] {ranking : Ranking α} {threshold : α} {current : String}
  {useUnknown : Bool}

section

variable (hkeeps : ∀ r ∈ ranking.toList, keeps current useUnknown r = true)

include hkeeps

/-- Where all renamings leave the name alone, the first one does. -/
theorem find?_keeps : ranking.toList.find? (keeps current useUnknown) = ranking.first? := by
  rw [SortedSet.first?]
  cases hlist : ranking.toList with
  | nil => rfl
  | cons top rest =>
    have htop := hkeeps top (by rw [hlist]; exact List.mem_cons_self)
    rw [List.find?_cons_of_pos htop, List.head?_cons]

/-- Where all renamings keep the name, the gap is that of the first to itself. -/
theorem confidenceGap?_of_keeps :
    ranking.confidenceGap? current useUnknown
      = ranking.first?.map fun top => top.score - top.score := by
  rw [confidenceGap?, find?_keeps hkeeps]
  cases ranking.first? <;> rfl

/-- Cut down, too, the gap is one from a score to itself. -/
theorem gapUpTo_of_keeps :
    ranking.gapUpTo threshold current useUnknown
      = ranking.topScore threshold - ranking.topScore threshold := by
  rw [gapUpTo, keepScore, find?_keeps hkeeps, topScore]

end

/-- What holds of all scores and of the threshold holds of the score of the best renaming. -/
theorem topScore_of_forall {p : α → Prop} (h : ∀ r ∈ ranking.toList, p r.score)
    (hthreshold : p threshold) : p (ranking.topScore threshold) := by
  rw [topScore]
  cases hfirst : ranking.first? with
  | none => exact hthreshold
  | some r => exact h r (List.mem_of_mem_head? hfirst)

end Ranking

namespace Renamer

variable {α : Type} [Arithmetic α] {renamer : Renamer α} {model : BackoffModel}

/-! ### Names that are scored by themselves -/

omit [Arithmetic α] in
/-- Without contexts a model of n-grams finds no names. -/
theorem mem_candidatePool_empty_iff (h : renamer.model.fillers = model.fillers)
    {current name : String} :
    name ∈ (renamer.candidatePool .empty current).toList ↔
      name = current ∨ name = unknownSymbol := by
  have hothers : renamer.otherFillers .empty current = .empty := by
    rw [otherFillers, h]
    rfl
  have hnone : renamer.topFillers .empty current = [] := by
    rw [topFillers_eq, hothers]
    show ((List.mergeSort [] moreFrequent).take _).map Prod.fst = []
    rw [List.mergeSort_nil, List.take_nil, List.map_nil]
  rw [mem_candidatePool_iff, hnone]
  simp [or_comm]

/-- Without contexts a name can be scored if it is likely by itself. -/
theorem scorable_empty_iff {name : String} :
    renamer.Scorable .empty name ↔ renamer.Likely (.single name) := by
  have hkeys : (SortedMap.empty : ContextSet).keys = [] := rfl
  have hempty : (SortedMap.empty : ContextSet).isEmpty = true := rfl
  simp [Scorable, hkeys, hempty]

/-- A name by itself counts as one occurrence. The weight of its context is divided by the order,
which has no result for an order of zero. -/
theorem contexts_of_loneContext (horder : 0 < renamer.model.order) {scope : Option Scope}
    {name : String} {r : Renaming α}
    (h : renamer.scoreCandidate loneContext scope name = .ok r) : r.contexts = 1 := by
  cases hmode : renamer.mode with
  | crossEntropy =>
    -- The single context has weight one, and a positive order divides it to one or to zero.
    rw [contexts_of_scoreCandidate hmode h, total_loneContext]
    have hquotient : 1 / renamer.model.order ≤ 1 :=
      (Nat.div_le_iff_le_mul_add_pred horder).2 (by omega)
    exact Nat.max_eq_left hquotient
  | formatting =>
    -- In formatting mode the number of contexts does not depend on the order.
    unfold scoreCandidate at h
    cases hbits : renamer.logLikelihood loneContext name with
    | error e =>
      rw [hbits] at h
      cases h
    | ok bits =>
      rw [hbits, hmode] at h
      cases h
      rfl

section

variable {scope : Scope} {identifier : String} {tokens : List String}
  (htokens : renamer.tokenizer.texts scope.snippet = .ok tokens)
  (hunseen : ∀ token ∈ tokens, isOccurrence identifier token = false)

include htokens hunseen

/-- An occurrence that is not in its snippet is ranked without contexts. -/
theorem ranksScorable_unseen :
    renamer.RanksScorable .empty identifier (some scope) (renamer.rank scope identifier) := by
  have h := ranksScorable_rank scope identifier htokens
  rwa [nameContexts_eq_empty hunseen] at h

/-- Of a name that the snippet does not have, two names are ranked at most. -/
theorem mem_names_rank_unseen (h : renamer.model.fillers = model.fillers) (name : String) :
    name ∈ (renamer.rank scope identifier).toList.map Renaming.name ↔
      (name = identifier ∨ name = unknownSymbol) ∧ renamer.Likely (.single name) := by
  rw [(ranksScorable_unseen htokens hunseen).mem_names_iff, mem_candidatePool_empty_iff h,
    scorable_empty_iff]

/-- Both leave the name alone. -/
theorem keeps_of_mem_rank_unseen (h : renamer.model.fillers = model.fillers) {r : Renaming α}
    (hr : r ∈ (renamer.rank scope identifier).toList) : Ranking.keeps identifier true r = true := by
  have hname := (mem_names_rank_unseen htokens hunseen h r.name).1 (List.mem_map_of_mem hr)
  rw [Ranking.keeps, Renaming.isUnknown, Bool.true_and, Bool.or_eq_true, decide_eq_true_eq,
    decide_eq_true_eq]
  exact hname.1

end

end Renamer

namespace Scorer

/-! ### Occurrences that are left out -/

section

variable {α : Type} [Arithmetic α] {scorer : Scorer α} {o : Occurrence} {filter : Bool}

/-- Only the occurrences that are given are reported. -/
theorem occurrence_mem_of_mem_aggregate {occurrences : List Occurrence} {s : Suggestion α}
    (h : s ∈ (scorer.aggregate filter (scorer.suggestInTurn occurrences)).suggestions) :
    s.occurrence ∈ occurrences := by
  have hfull : ∃ full ∈ scorer.suggestInTurn occurrences, full.occurrence = s.occurrence := by
    have hcut := List.mem_of_mem_filter ((Suggestion.perm_sort _).mem_iff.1 h)
    cases filter with
    | false => exact ⟨s, hcut, rfl⟩
    | true =>
      obtain ⟨full, hfull, rfl⟩ := List.mem_map.1 hcut
      exact ⟨full, hfull, rfl⟩
  obtain ⟨full, hfull, heq⟩ := hfull
  obtain ⟨o, ho, hsuggest⟩ := List.mem_filterMap.1 ((Suggestion.perm_sort _).mem_iff.1 hfull)
  rw [← heq, occurrence_of_suggest hsuggest]
  exact ho

/-- The suggestion as a report shows it: cut down if the report is filtered. -/
def shown (scorer : Scorer α) (filter : Bool) (s : Suggestion α) : Suggestion α :=
  if filter then scorer.cutDown s else s

/-- A report can be made by leaving out suggestions first and cutting down the others then. -/
theorem filter_isReported (suggestions : List (Suggestion α)) :
    (if filter then suggestions.map scorer.cutDown else suggestions).filter scorer.isReported
      = (suggestions.filter (scorer.isReported ∘ scorer.shown filter)).map
        (scorer.shown filter) := by
  rw [← List.filter_map]
  cases filter with
  | false => exact congrArg _ (List.map_id suggestions).symm
  | true => rfl

/-- Suggestions may be filtered before they are sorted. -/
theorem filter_suggestInTurn (p : Suggestion α → Bool) (occurrences : List Occurrence) :
    (scorer.suggestInTurn occurrences).filter p
      = Suggestion.sort ((occurrences.filterMap scorer.suggest).filter p) :=
  Suggestion.filter_sort p fun _ ha _ hb => eq_of_mem_suggestions ha hb

/-- What is left out of the suggestions can be left out of the occurrences. -/
theorem filter_filterMap_suggest {p : Suggestion α → Bool}
    (h : ∀ s, scorer.suggest o = some s → p s = false) (occurrences : List Occurrence) :
    ((occurrences.filter (· ≠ o)).filterMap scorer.suggest).filter p
      = (occurrences.filterMap scorer.suggest).filter p := by
  rw [List.filterMap_filter, List.filter_filterMap, List.filter_filterMap]
  refine List.filterMap_congr fun o' _ => ?_
  by_cases ho : o' = o
  · subst ho
    cases hsuggest : scorer.suggest o' with
    | none => simp
    | some s =>
      rw [Option.filter_some_neg (h s hsuggest)]
      simp
  · simp [ho]

/-- An occurrence that would not be reported can be left out. -/
theorem aggregate_suggestInTurn_filter_ne
    (h : ∀ s, scorer.suggest o = some s → scorer.isReported (scorer.shown filter s) = false)
    (occurrences : List Occurrence) :
    scorer.aggregate filter (scorer.suggestInTurn (occurrences.filter (· ≠ o)))
      = scorer.aggregate filter (scorer.suggestInTurn occurrences) := by
  have hsame :=
    filter_filterMap_suggest (p := scorer.isReported ∘ scorer.shown filter) h occurrences
  rw [aggregate, aggregate, filter_isReported, filter_isReported, filter_suggestInTurn,
    filter_suggestInTurn, hsame]

end

/-! ### Occurrences of names that are not there -/

section

variable {log2 : Float → Float} {scorer : Scorer (FloatWithLog log2)} {o : Occurrence}

/-- What holds of an occurrence that a scorer has nothing to say about. -/
structure Silent (scorer : Scorer (FloatWithLog log2)) (o : Occurrence) : Prop where
  /-- Ranked are the name and the symbol for unknown names, each if the model finds it likely by
  itself, and no other names. -/
  mem_names_iff : ∀ name,
    name ∈ (scorer.renamer.rank o.scope o.name).toList.map Renaming.name ↔
      (name = o.name ∨ name = unknownSymbol) ∧ scorer.renamer.Likely (.single name)
  /-- A name is scored on the lone wildcard, and that counts as one occurrence. -/
  scored_alone : ∀ r ∈ (scorer.renamer.rank o.scope o.name).toList,
    scorer.renamer.scoreCandidate Renamer.loneContext (some o.scope) r.name = .ok r ∧ r.contexts = 1
  gap_eq_zero : (scorer.renamer.rank o.scope o.name).toList ≠ [] →
    Ranking.confidenceGap? (scorer.renamer.rank o.scope o.name) o.name scorer.thresholds.useUnknown
      = some (0 : Float)
  not_reported : ∀ (machine : Machine) (occurrences : List Occurrence) (filter : Bool),
    ∀ s ∈ (scorer.scoreOccurrences machine occurrences filter).suggestions, s.occurrence ≠ o
  /-- Without the occurrence the report is the same, with its score. -/
  report_eq : ∀ (machine : Machine) (occurrences : List Occurrence) (filter : Bool),
    scorer.scoreOccurrences machine (occurrences.filter (· ≠ o)) filter
      = scorer.scoreOccurrences machine occurrences filter

/-- A gap of zero is not above a floor that is not negative. -/
theorem isReported_eq_false (hfinite : Number.isFinite scorer.thresholds.reportingFloor = true)
    (hfloor : 0 ≤ scorer.thresholds.reportingFloor) {s : Suggestion (FloatWithLog log2)}
    (h : s.gap = (0 : Float)) : scorer.isReported s = false := by
  have hzero : ¬ scorer.thresholds.reportingFloor < 0 := by
    rw [Number.lt_iff hfinite Number.isFinite_zero, not_lt]
    exact (Number.le_iff Number.isFinite_zero hfinite).1 hfloor
  refine decide_eq_false fun hgap => hzero ?_
  rw [h] at hgap
  exact hgap

variable
  (hkeeps : ∀ r ∈ (scorer.renamer.rank o.scope o.name).toList,
    Ranking.keeps o.name scorer.thresholds.useUnknown r = true)
  (hscores : ∀ r ∈ (scorer.renamer.rank o.scope o.name).toList,
    Arithmetic.isFinite r.score = true)

include hkeeps hscores

/-- The gap of an occurrence without evidence is zero. -/
theorem gap_of_suggest {s : Suggestion (FloatWithLog log2)} (h : scorer.suggest o = some s) :
    s.gap = (0 : Float) := by
  obtain ⟨gap, hgap, rfl⟩ := Option.map_eq_some_iff.1 h
  rw [Ranking.confidenceGap?_of_keeps hkeeps] at hgap
  obtain ⟨top, htop, rfl⟩ := Option.map_eq_some_iff.1 hgap
  exact Number.sub_self_of_isFinite (hscores top (List.mem_of_mem_head? htop))

/-- A cut leaves the gap as it is, if it puts the symbol back at a finite threshold. -/
theorem cutGap_eq_zero (huse : scorer.thresholds.useUnknown = true)
    (hthreshold : Number.isFinite (scorer.thresholds.thresholdFor o.scope.kind) = true) :
    scorer.cutGap o = (0 : Float) := by
  -- What the cut leaves are finite scores and the symbol put back at a finite threshold.
  have hcut : ∀ r ∈ (scorer.cutRanking o).toList,
      Ranking.keeps o.name scorer.thresholds.useUnknown r = true ∧
        Arithmetic.isFinite r.score = true := by
    refine Ranking.forall_mem_applyThreshold (fun r hr => ?_) ⟨?_, ?_⟩
    · have hmem := Ranking.worthReporting_isPrefix.subset hr
      exact ⟨hkeeps r hmem, hscores r hmem⟩
    · rw [Ranking.keeps, huse, Ranking.isUnknown_unknownAt]
      simp
    · exact hthreshold
  -- All of them keep the name, so the gap is a finite score less itself.
  rw [cutGap, Ranking.gapUpTo_of_keeps fun r hr => (hcut r hr).1]
  exact Number.sub_self_of_isFinite (Ranking.topScore_of_forall
    (p := fun score => Number.isFinite score = true) (fun r hr => (hcut r hr).2) hthreshold)

end

/-- **No evidence, no report.** Take any renamer that looks at a token at least and finds names as a
model of n-grams does, which that model and every mixture with it do (`DrawsNamesFrom.fillers_eq`).
It may have any priors, and its probabilities may be any, those of counts that come round in words
of 64 bits among them. Take valid thresholds with a floor that is not negative, by which the symbol
for unknown names leaves a name alone, and an occurrence of a name in a snippet with tokens, none of
which is the name or holds it between two `%`. If the scores of its ranking are finite, the
occurrence is `Silent`: no names but the two are ranked, the gap is zero, and the occurrence is in
no report, filtered or not, whatever the machine and the other occurrences. -/
theorem silent_of_unseen {log2 : Float → Float} {model : BackoffModel}
    (scorer : Scorer (FloatWithLog log2)) (o : Occurrence) {tokens : List String}
    (hmodel : scorer.renamer.model.fillers = model.fillers)
    (horder : 1 ≤ scorer.renamer.model.order)
    (hvalid : scorer.thresholds.validate = .ok ()) (huse : scorer.thresholds.useUnknown = true)
    (hfloor : 0 ≤ scorer.thresholds.reportingFloor)
    (htokens : scorer.renamer.tokenizer.texts o.scope.snippet = .ok tokens)
    (hunseen : ∀ token ∈ tokens,
      token ≠ o.name ∧ Text.occurs ("%" ++ o.name ++ "%") token = false)
    (hscores : ∀ r ∈ (scorer.renamer.rank o.scope o.name).toList,
      Arithmetic.isFinite r.score = true) :
    scorer.Silent o := by
  -- The name occurs nowhere in the snippet, so it is scored on the lone wildcard.
  have hnone : ∀ token ∈ tokens, isOccurrence o.name token = false := by
    intro token htoken
    obtain ⟨hne, hwrapped⟩ := hunseen token htoken
    rw [isOccurrence_eq_decide hwrapped, decide_eq_false hne]
  have hkeeps : ∀ r ∈ (scorer.renamer.rank o.scope o.name).toList,
      Ranking.keeps o.name scorer.thresholds.useUnknown r = true := by
    rw [huse]
    exact fun r hr => Renamer.keeps_of_mem_rank_unseen htokens hnone hmodel hr
  obtain ⟨hthresholds, hfinite⟩ := ThresholdConfig.isFinite_of_validate hvalid
  -- With the filter or without, the gap is zero and the floor is not below it.
  have hunreported : ∀ (filter : Bool) s, scorer.suggest o = some s →
      scorer.isReported (scorer.shown filter s) = false := by
    intro filter s hs
    apply isReported_eq_false hfinite hfloor
    cases filter with
    | false => exact gap_of_suggest hkeeps hscores hs
    | true =>
      rw [shown, if_pos rfl, cutDown_of_suggest hs]
      exact cutGap_eq_zero hkeeps hscores huse (hthresholds o.scope.kind)
  -- So the report is the same as if the occurrence had not been listed.
  have hreport : ∀ (machine : Machine) (occurrences : List Occurrence) (filter : Bool),
      scorer.scoreOccurrences machine (occurrences.filter (· ≠ o)) filter
        = scorer.scoreOccurrences machine occurrences filter := by
    intro machine occurrences filter
    rw [scoreOccurrences, scoreOccurrences, rankSuggestions_eq_suggestInTurn,
      rankSuggestions_eq_suggestInTurn]
    exact aggregate_suggestInTurn_filter_ne (hunreported filter) occurrences
  refine {
    mem_names_iff := Renamer.mem_names_rank_unseen htokens hnone hmodel
    scored_alone := fun r hr => ?_
    gap_eq_zero := fun hne => ?_
    not_reported := fun machine occurrences filter s hs => ?_
    report_eq := hreport }
  · have hscore := (Renamer.ranksScorable_unseen htokens hnone).score_eq r hr
    exact ⟨hscore, Renamer.contexts_of_loneContext horder hscore⟩
  · obtain ⟨top, rest, hlist⟩ := List.exists_cons_of_ne_nil hne
    have htop : top ∈ (scorer.renamer.rank o.scope o.name).toList := by
      rw [hlist]
      exact List.mem_cons_self
    rw [Ranking.confidenceGap?_of_keeps hkeeps, SortedSet.first?, hlist]
    exact congrArg some (Number.sub_self_of_isFinite (hscores top htop))
  · rw [← hreport, scoreOccurrences, rankSuggestions_eq_suggestInTurn] at hs
    simpa using (List.mem_filter.1 (occurrence_mem_of_mem_aggregate hs)).2

/-- A mixture of the model of the letters with itself, and a prior that makes `y` dear. A variable
is reported up to a score of one half. -/
def lettersScorer : Scorer (FloatWithLog Renamer.coarseLog) where
  renamer := {
    model :=
      let model := (Training.inOneGo Training.letters Training.pairConfig Training.pairUnits).model
      Mixture.languageModel ⟨model, model, Mixture.defaultWeight⟩
    tokenizer := .code
    priors := [⟨fun name _ => if name = "y" then (0.5 : Float) else (0 : Float)⟩]
    config := {}
    mode := .crossEntropy }
  extractor := .flat .code .var
  thresholds := { var := 0.5, maxRank := 1 }

/-- The name `y` is not in the snippet. It is ranked behind the symbol for unknown names, and it is
not reported with the name that is there. -/
theorem silent_of_unseen_letters :
    let o : Occurrence := ⟨.ofSnippet "x = 1 ;" .var, "y"⟩
    let ranking := lettersScorer.renamer.rank o.scope o.name
    (∃ model, DrawsNamesFrom model lettersScorer.renamer.model) ∧
      1 ≤ lettersScorer.renamer.model.order ∧
      lettersScorer.thresholds.validate = .ok () ∧ lettersScorer.thresholds.useUnknown = true ∧
      0 ≤ lettersScorer.thresholds.reportingFloor ∧
      lettersScorer.renamer.tokenizer.texts o.scope.snippet = .ok ["x", "=", "1", ";"] ∧
      (∀ token ∈ ["x", "=", "1", ";"],
        token ≠ o.name ∧ Text.occurs ("%" ++ o.name ++ "%") token = false) ∧
      (∀ r ∈ ranking.toList, Arithmetic.isFinite r.score = true) ∧
      "y" ∈ ranking.toList.map Renaming.name ∧
      Ranking.confidenceGap? ranking "y" true = some (0 : Float) ∧
      ∀ s ∈ (lettersScorer.scoreOccurrences (.inTurn 4) [o, ⟨o.scope, "x"⟩, o] true).suggestions,
        s.occurrence ≠ o := by
  intro o ranking
  have hmodel : DrawsNamesFrom _ lettersScorer.renamer.model := .mixed _ rfl
  have horder : 1 ≤ lettersScorer.renamer.model.order := by decide
  have hcode : Tokenizer.code.texts "x = 1 ;" = .ok ["x", "=", "1", ";"] := by cbv
  have htokens : lettersScorer.renamer.tokenizer.texts o.scope.snippet
      = .ok ["x", "=", "1", ";"] := hcode
  have hunseen : ∀ token ∈ ["x", "=", "1", ";"],
      token ≠ o.name ∧ Text.occurs ("%" ++ o.name ++ "%") token = false := by decide
  have hnone : ∀ token ∈ ["x", "=", "1", ";"], isOccurrence o.name token = false := by decide
  have hranks := Renamer.ranksScorable_unseen htokens hnone
  -- Of each name that can be in the ranking, the score is found to be finite.
  have hfinite : ∀ name, name = o.name ∨ name = unknownSymbol →
      (lettersScorer.renamer.scoreCandidate Renamer.loneContext (some o.scope) name).toOption.all
        (fun r => Arithmetic.isFinite r.score) = true := by
    rintro name (rfl | rfl) <;> decide +kernel
  have hscores : ∀ r ∈ ranking.toList, Arithmetic.isFinite r.score = true := by
    intro r hr
    have hname := Renamer.mem_names_rank_unseen htokens hnone hmodel.fillers_eq r.name
    have hscore := hfinite r.name (hname.1 (List.mem_map_of_mem hr)).1
    rwa [show lettersScorer.renamer.scoreCandidate Renamer.loneContext _ r.name = _ from
      hranks.score_eq r hr] at hscore
  have hsilent : lettersScorer.Silent o :=
    silent_of_unseen lettersScorer o hmodel.fillers_eq horder (by decide) rfl (by decide) htokens
      hunseen hscores
  have hy : "y" ∈ ranking.toList.map Renaming.name :=
    (hsilent.mem_names_iff "y").2 ⟨.inl rfl, by decide +kernel⟩
  refine ⟨⟨_, hmodel⟩, horder, by decide, rfl, by decide, htokens, hunseen, hscores, hy, ?_,
    hsilent.not_reported _ _ _⟩
  refine hsilent.gap_eq_zero fun hnil => ?_
  rw [hnil] at hy
  cases hy

end Scorer

end NaturalNames
