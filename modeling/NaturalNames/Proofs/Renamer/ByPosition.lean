import Mathlib
import NaturalNames.Proofs.NGram.Bounds
import NaturalNames.Proofs.Number.Zeros
import NaturalNames.Proofs.Renamer.Masking
import NaturalNames.Proofs.Renamer.Ranking

/-!
# `NaturalNames.Proofs.Renamer.ByPosition`: ranking by name and ranking by position

A name in a scope is ranked on the contexts of its occurrences, which are looked for in the tokens
of the snippet. The name at given positions is ranked on the contexts of these. If no token holds
the name between two `%`, an occurrence is a token that is the name, and putting the wildcard in
place of the name is putting it at the positions (`nameContexts_eq_contextsAt`). So both rankings
score one pool on one set of contexts.

Without priors, their scores still differ in one thing. In a scope the price under the priors is a
sum without terms, which is `-0`; without a scope it is `0`. Hence a score may be `-0` in one
ranking and `0` in the other, and the total order, by which rankings are listed, tells the zeros
apart. Why do the rankings list the names in one order all the same? A sum of logarithms is never
`-0`, and unless it is `0` it is so far from zero that its quotient is not zero either
(`isLogSum_logLikelihood`). So the zeros of one ranking stand where those of the other do.

The last step needs to know about logarithms that they have no tiny values (`ClearOfZero`).
-/

set_option autoImplicit false

namespace NaturalNames

/-! ### Occurrences by position -/

/-- The positions of the tokens that are the name. -/
def positionsOf (name : String) (tokens : List String) : SortedSet Nat :=
  .ofList ((List.range tokens.length).filter fun i => tokens[i]? = some name)

section

variable {name : String} {tokens : List String}

/-- The positions of a name are those where a token equals it. -/
theorem mem_positionsOf_iff {i : Nat} :
    i ∈ (positionsOf name tokens).toList ↔ tokens[i]? = some name := by
  rw [positionsOf, SortedSet.mem_ofList_iff, List.mem_filter, List.mem_range, decide_eq_true_eq]
  refine ⟨fun h => h.2, fun h => ⟨?_, h⟩⟩
  exact (List.getElem?_eq_some_iff.1 h).1

/-- Where no token holds the name in marks, an occurrence is a token that equals the name. -/
theorem isOccurrence_eq_decide {token : String}
    (h : Text.occurs ("%" ++ name ++ "%") token = false) :
    isOccurrence name token = decide (token = name) := by
  rw [isOccurrence, h, Bool.or_false]

/-- A token that is the name is left open altogether. -/
theorem replace_self_wildcard (hname : name ≠ "") : Text.replace name wildcard name = wildcard := by
  have hlist : name.toList ≠ [] := by simpa using hname
  rw [Text.replace, Text.replaceAll_whole hlist, String.ofList_toList]

variable (hwrapped : ∀ token ∈ tokens, Text.occurs ("%" ++ name ++ "%") token = false)

include hwrapped

/-- Without names in marks a name occurs at the positions of its tokens. -/
theorem occurrencePositions_eq_positionsOf :
    occurrencePositions name tokens = positionsOf name tokens := by
  rw [occurrencePositions, positionsOf]
  congr 1
  apply List.filter_congr
  intro i _
  cases hget : tokens[i]? with
  | none => rfl
  | some token =>
    rw [Option.any_some, isOccurrence_eq_decide (hwrapped token (List.mem_of_getElem? hget))]
    simp

/-- Without names in marks, leaving a name open and leaving its positions open are the same. -/
theorem maskOccurrences_eq_maskPositions (hname : name ≠ "") :
    maskOccurrences name tokens = Renamer.maskPositions (positionsOf name tokens) tokens := by
  apply List.ext_getElem?
  intro i
  rw [maskOccurrences, List.getElem?_map, getElem?_maskPositions]
  simp only [mem_positionsOf_iff]
  cases hget : tokens[i]? with
  | none => simp
  | some token =>
    rw [Option.map_some, isOccurrence_eq_decide (hwrapped token (List.mem_of_getElem? hget))]
    by_cases htoken : token = name
    · subst htoken
      simp [replace_self_wildcard hname]
    · simp [htoken]

/-- The contexts of a name are those of the positions at which it stands. -/
theorem nameContexts_eq_contextsAt (order : Nat) (hname : name ≠ "") :
    nameContexts order name tokens
      = contextsAt order (Renamer.maskPositions (positionsOf name tokens) tokens)
        (positionsOf name tokens) := by
  rw [nameContexts, maskOccurrences_eq_maskPositions hwrapped hname,
    occurrencePositions_eq_positionsOf hwrapped]

end

/-! ### Floats with a given logarithm -/

/-- The floats, with `log2` for the logarithm. -/
def FloatWithLog (_log2 : Float → Float) : Type := Float

instance (log2 : Float → Float) : Arithmetic (FloatWithLog log2) :=
  { (show Arithmetic (FloatWithLog log2) from (inferInstance : Arithmetic Float)) with
    log2 := log2 }

-- With the logarithm of floats these are the floats that scores are computed in.
example :
    (inferInstance : Arithmetic (FloatWithLog Float.log2)) = (inferInstance : Arithmetic Float) :=
  rfl

/-- A logarithm has no values near zero but zero. The floats next to one are `2 ^ -53` away from it
or more, and their logarithms are not smaller than that. -/
def ClearOfZero (log2 : Float → Float) : Prop :=
  ∀ p, Number.isFinite p = true → 0 < p →
    Number.exact (log2 p) = 0 ∨ (2 : ℚ) ^ (-64 : Int) ≤ |Number.exact (log2 p)|

namespace Renamer

/-! ### Sums of logarithms -/

section

variable {log2 : Float → Float} {renamer : Renamer (FloatWithLog log2)} {contexts : ContextSet}
  {name : String}

/-- A sum of logarithms: it is not `-0`, and it is a multiple of `2 ^ -117`. -/
structure IsLogSum (x : Float) : Prop where
  isOnGrid : Number.IsOnGrid (-117) x
  ne_negative_zero : x.toModel.unpack ≠ .zero .negative

/-- The sum starts at zero, which is on every grid. -/
theorem IsLogSum.zero : IsLogSum 0 where
  isOnGrid := trivial
  ne_negative_zero := nofun

/-- A logarithm away from zero, times a weight, keeps the sum on its grid. -/
theorem IsLogSum.add_mul {sum bits : Float} (hsum : IsLogSum sum)
    (hbits : Number.IsOnGrid (-117) bits) (weight : Nat) :
    IsLogSum (sum + bits * Float.ofNat weight) where
  isOnGrid := hsum.isOnGrid.add (hbits.mul (Number.isOnGrid_ofNat weight))
  ne_negative_zero := Number.unpack_add_ne_negative_zero hsum.ne_negative_zero

/-- A logarithm that is clear of zero is not so small that its quotients are rounded away. -/
theorem isOnGrid_of_logProbability (hlog : ClearOfZero log2) {ngram : NGram}
    {bits : FloatWithLog log2} (h : renamer.logProbability name ngram = .ok bits) :
    Number.IsOnGrid (-117) bits := by
  rw [logProbability] at h
  split at h
  next => cases h
  next filled _ =>
    dsimp only at h
    split at h
    next => cases h
    next hlikely =>
      cases h
      rw [not_or, Bool.not_eq_false] at hlikely
      obtain ⟨hfinite, hpositive⟩ := hlikely
      -- What is left is the logarithm of a finite, positive probability.
      let p : Float := renamer.model.probability filled
      have hfinite : Number.isFinite p = true := hfinite
      have hpositive : ¬ p ≤ 0 := hpositive
      rw [Number.le_iff hfinite Number.isFinite_zero, not_le,
        ← Number.lt_iff Number.isFinite_zero hfinite] at hpositive
      -- Such a logarithm is zero or far enough from zero to lie on the grid.
      rcases hlog p hfinite hpositive with hzero | habs
      · exact Number.isOnGrid_of_exact_eq_zero hzero
      · exact Number.isOnGrid_of_le_abs_exact habs

/-- A step of the sum keeps it on the grid, and so does the whole sum. -/
theorem isLogSum_logLikelihood (hlog : ClearOfZero log2) {bits : FloatWithLog log2}
    (h : renamer.logLikelihood contexts name = .ok bits) : IsLogSum bits := by
  rw [logLikelihood] at h
  have hzero : IsLogSum (Arithmetic.ofNat 0 : FloatWithLog log2) := IsLogSum.zero
  -- The sum is taken from the left, so the induction runs with any sum before it.
  generalize (Arithmetic.ofNat 0 : FloatWithLog log2) = sum at h hzero
  generalize contexts.entries = entries at h
  induction entries generalizing sum with
  | nil =>
    cases h
    exact hzero
  | cons e rest ih =>
    obtain ⟨ngram, weight⟩ := e
    rw [List.foldlM_cons] at h
    dsimp only at h
    cases hbits : renamer.logProbability name ngram with
    | error reason =>
      rw [hbits] at h
      cases h
    | ok value =>
      rw [hbits] at h
      exact ih _ (hzero.add_mul (isOnGrid_of_logProbability hlog hbits) weight) h

/-! ### Two scores of a name -/

/-- Two renamings to one name, made on as many occurrences, with scores that are related by `P`. -/
structure Matched (P : Float → Float → Prop) (r r' : Renaming (FloatWithLog log2)) : Prop where
  name_eq : r.name = r'.name
  contexts_eq : r.contexts = r'.contexts
  score : P r.score r'.score

/-- Two outcomes of scoring a name, both drawn from one sum of logarithms. -/
inductive ScoredAlike (P : Float → Float → Prop) :
    Except (Unscorable (FloatWithLog log2)) (FloatWithLog log2) →
    Except (Unscorable (FloatWithLog log2)) (Renaming (FloatWithLog log2)) →
    Except (Unscorable (FloatWithLog log2)) (Renaming (FloatWithLog log2)) → Prop
  | ok (bits : FloatWithLog log2) {r r' : Renaming (FloatWithLog log2)} (h : Matched P r r') :
      ScoredAlike P (.ok bits) (.ok r) (.ok r')
  | error (reason : Unscorable (FloatWithLog log2)) :
      ScoredAlike P (.error reason) (.error reason) (.error reason)

/-- What is known of the scores of matched renamings may be weakened. -/
theorem Matched.imp {P Q : Float → Float → Prop} (hPQ : ∀ x y, P x y → Q x y)
    {r r' : Renaming (FloatWithLog log2)} (h : Matched P r r') : Matched Q r r' where
  name_eq := h.name_eq
  contexts_eq := h.contexts_eq
  score := hPQ _ _ h.score

/-- Without priors a name has the price of an empty sum. -/
theorem priorCost_of_no_priors (hpriors : renamer.priors = []) (scope : Scope) :
    renamer.priorCost name scope = (-0 : Float) := by
  rw [priorCost, hpriors]
  rfl

/-- With and without a scope a name has one score by formatting. -/
theorem scoredAlike_of_formatting {P : Float → Float → Prop} (hmode : renamer.mode = .formatting)
    (hP : ∀ x, P x x) (scope : Scope) :
    ScoredAlike P (renamer.logLikelihood contexts name)
      (renamer.scoreCandidate contexts (some scope) name)
      (renamer.scoreCandidate contexts none name) := by
  unfold scoreCandidate
  rw [hmode]
  cases renamer.logLikelihood contexts name with
  | error reason => exact .error reason
  | ok bits => exact .ok bits ⟨rfl, rfl, hP _⟩

/-- The score by cross-entropy is taken from either zero. -/
theorem scoredAlike_of_crossEntropy {P : Float → Float → Prop} (hpriors : renamer.priors = [])
    (hmode : renamer.mode = .crossEntropy)
    (hP : ∀ bits : Float, renamer.logLikelihood contexts name = .ok bits →
      P ((-0 - bits) / Float.ofNat contexts.total) ((0 - bits) / Float.ofNat contexts.total))
    (scope : Scope) :
    ScoredAlike P (renamer.logLikelihood contexts name)
      (renamer.scoreCandidate contexts (some scope) name)
      (renamer.scoreCandidate contexts none name) := by
  unfold scoreCandidate
  rw [hmode]
  cases hbits : renamer.logLikelihood contexts name with
  | error reason => exact .error reason
  | ok bits =>
    -- The renamings differ in their scores, so each of the other fields is compared by itself.
    refine .ok bits ⟨?_, ?_, ?_⟩
    · show name = name
      rfl
    · show max 1 (contexts.total / renamer.model.order)
        = max 1 (contexts.total / renamer.model.order)
      rfl
    · dsimp only
      rw [priorCost_of_no_priors hpriors]
      exact hP bits hbits

/-- With and without a scope, the scores of a name are the same but for the sign of zero. -/
theorem scoredAlike_sameNumber (hpriors : renamer.priors = []) (htotal : contexts.total ≠ 0)
    (scope : Scope) (name : String) :
    ScoredAlike Number.SameNumber (renamer.logLikelihood contexts name)
      (renamer.scoreCandidate contexts (some scope) name)
      (renamer.scoreCandidate contexts none name) := by
  cases hmode : renamer.mode with
  | crossEntropy =>
    apply scoredAlike_of_crossEntropy hpriors hmode
    intro bits _
    exact Number.sameNumber_sub_div bits htotal
  | formatting => exact scoredAlike_of_formatting hmode (fun _ => .inl rfl) scope

/-! ### Two rankings -/

/-- Matched renamings have one order if their scores have. -/
theorem Matched.compare_eq {P : Float → Float → Prop}
    (hP : ∀ x x' y y', P x y → P x' y' → Number.totalCompare x x' = Number.totalCompare y y')
    (a a' b b' : Renaming (FloatWithLog log2)) (ha : Matched P a a') (hb : Matched P b b') :
    compare a b = compare a' b' := by
  have hscore : Arithmetic.order a.score b.score = Arithmetic.order a'.score b'.score :=
    hP _ _ _ _ ha.score hb.score
  rw [Renaming.compare_eq_then, Renaming.compare_eq_then, hscore, ha.name_eq, hb.name_eq]

/-- Rankings of one pool list matching renamings in one order. -/
theorem forall₂_scoreCandidates {P : Float → Float → Prop}
    (hP : ∀ x x' y y', P x y → P x' y' → Number.totalCompare x x' = Number.totalCompare y y')
    {candidates : SortedSet String} {scope scope' : Option Scope}
    (h : ∀ name, ScoredAlike P (renamer.logLikelihood (scoredContexts contexts) name)
      (renamer.scoreCandidate (scoredContexts contexts) scope name)
      (renamer.scoreCandidate (scoredContexts contexts) scope' name)) :
    List.Forall₂ (Matched P) (renamer.scoreCandidates contexts candidates scope).toList
      (renamer.scoreCandidates contexts candidates scope').toList := by
  apply SortedSet.forall₂_ofList (Matched.compare_eq hP)
  induction candidates.toList with
  | nil => exact .nil
  | cons name rest ih =>
    have hname := h name
    rw [List.filterMap_cons, List.filterMap_cons]
    generalize renamer.logLikelihood (scoredContexts contexts) name = bits,
      renamer.scoreCandidate (scoredContexts contexts) scope name = outcome,
      renamer.scoreCandidate (scoredContexts contexts) scope' name = outcome' at hname ⊢
    cases hname with
    | ok bits hmatched => exact .cons hmatched ih
    | error reason => exact ih

/-- With and without a scope, the candidates are listed in one order. -/
theorem forall₂_scoreCandidates_none (hpriors : renamer.priors = [])
    (htotal : (scoredContexts contexts).total ≠ 0)
    (h : renamer.mode = .formatting ∨
      ClearOfZero log2 ∧ (scoredContexts contexts).total < 2 ^ 64)
    (candidates : SortedSet String) (scope : Scope) :
    List.Forall₂ (Matched Number.SameNumber)
      (renamer.scoreCandidates contexts candidates (some scope)).toList
      (renamer.scoreCandidates contexts candidates none).toList := by
  cases hmode : renamer.mode with
  | crossEntropy =>
    rw [hmode] at h
    obtain ⟨hlog, hlt⟩ := h.resolve_left nofun
    -- Scores that are paired zeros keep their places in the order.
    have hpaired : List.Forall₂ (Matched Number.PairedZeros)
        (renamer.scoreCandidates contexts candidates (some scope)).toList
        (renamer.scoreCandidates contexts candidates none).toList := by
      apply forall₂_scoreCandidates fun _ _ _ _ => Number.PairedZeros.totalCompare_eq
      intro name
      apply scoredAlike_of_crossEntropy hpriors hmode
      intro bits hbits
      have hsum := isLogSum_logLikelihood hlog hbits
      exact Number.pairedZeros_sub_div hsum.isOnGrid (by decide) hsum.ne_negative_zero htotal hlt
    exact hpaired.imp fun _ _ => Matched.imp fun _ _ => Number.PairedZeros.sameNumber
  | formatting =>
    have hequal : List.Forall₂ (Matched (· = ·))
        (renamer.scoreCandidates contexts candidates (some scope)).toList
        (renamer.scoreCandidates contexts candidates none).toList := by
      apply forall₂_scoreCandidates
      · rintro x x' _ _ rfl rfl
        rfl
      · intro name
        exact scoredAlike_of_formatting hmode (fun _ => rfl) scope
    exact hequal.imp fun _ _ => Matched.imp fun _ _ => .inl

end

/-- There is always something to score: at least the name by itself. -/
theorem total_scoredContexts_ne_zero (order : Nat) (tokens : List String)
    (positions : SortedSet Nat) :
    (scoredContexts (contextsAt order tokens positions)).total ≠ 0 := by
  rw [scoredContexts]
  split
  next => decide
  next hne =>
    rw [contextsAt_eq_ofKeys] at hne ⊢
    rw [Tally.total_ofKeys]
    intro hlength
    rw [List.length_eq_zero_iff.1 hlength] at hne
    exact hne rfl

/-- The name by itself weighs no more than a word holds, so the bound on the contexts is enough. -/
theorem total_scoredContexts_lt {contexts : ContextSet} (h : contexts.total < 2 ^ 64) :
    (scoredContexts contexts).total < 2 ^ 64 := by
  rw [scoredContexts]
  split
  next => decide
  next => exact h

/-- The ranking of a name in a scope and that of the name at its positions among some tokens. -/
structure AgreesByPosition {log2 : Float → Float} (renamer : Renamer (FloatWithLog log2))
    (scope : Scope) (name : String) (tokens : List String) (contexts : ContextSet) : Prop where
  snippetContexts_eq : renamer.snippetContexts scope.snippet name = .ok contexts
  contextsAt_eq : contextsAt renamer.model.order
    (maskPositions (positionsOf name tokens) tokens) (positionsOf name tokens) = contexts
  /-- Both rankings score the pool of the name on these contexts. -/
  rank_eq : renamer.rank scope name
    = renamer.scoreCandidates contexts (renamer.candidatePool contexts name) (some scope)
  rankAt_eq : renamer.rankAt tokens (positionsOf name tokens) name
    = renamer.scoreCandidates contexts (renamer.candidatePool contexts name) none
  /-- A candidate has one sum of logarithms and from that the same score, but for the sign of zero,
  or it is left out of both for one reason. -/
  scoredAlike : ∀ candidate, ScoredAlike Number.SameNumber
    (renamer.logLikelihood (scoredContexts contexts) candidate)
    (renamer.scoreCandidate (scoredContexts contexts) (some scope) candidate)
    (renamer.scoreCandidate (scoredContexts contexts) none candidate)

/-- **Ranking by name and ranking by position agree.** Take any tokenizer, any renamer without
priors, a scope whose snippet has tokens, and a name that is not empty and that no token holds
between two `%`. The ranking of the name in the scope and the ranking of the name at the positions
of the tokens that are the name are made on one set of contexts and of one pool, and every candidate
has one sum of logarithms in both (`AgreesByPosition`). So the two rank the same names, with equal
counts and with scores that are equal but for the sign of a zero.

They list them in the same order, too. By formatting that is so in any case. By cross-entropy it
takes a logarithm that has no tiny values but zero (`ClearOfZero`) and contexts whose weight is
below `2 ^ 64`: a score that is rounded to zero might else stand in front of one that is zero in one
ranking, and not in the other. -/
theorem rankAt_agreesByPosition {log2 : Float → Float} (renamer : Renamer (FloatWithLog log2))
    (scope : Scope) {name : String} {tokens : List String} (hpriors : renamer.priors = [])
    (htokens : renamer.tokenizer.texts scope.snippet = .ok tokens) (hname : name ≠ "")
    (hwrapped : ∀ token ∈ tokens, Text.occurs ("%" ++ name ++ "%") token = false) :
    ∃ contexts, AgreesByPosition renamer scope name tokens contexts ∧
      (renamer.mode = .formatting ∨ ClearOfZero log2 ∧ contexts.total < 2 ^ 64 →
        List.Forall₂ (Matched Number.SameNumber) (renamer.rank scope name).toList
          (renamer.rankAt tokens (positionsOf name tokens) name).toList) := by
  -- The snippet's contexts are those at the positions of its occurrences.
  have hsnippet : renamer.snippetContexts scope.snippet name
      = .ok (contextsAt renamer.model.order
        (maskPositions (positionsOf name tokens) tokens) (positionsOf name tokens)) := by
    rw [snippetContexts_eq_ok htokens, nameContexts_eq_contextsAt hwrapped _ hname]
  have htotal := total_scoredContexts_ne_zero renamer.model.order
    (maskPositions (positionsOf name tokens) tokens) (positionsOf name tokens)
  -- Only the total of the contexts matters from here on; the rest of them stays closed.
  generalize hcontexts : contextsAt renamer.model.order
    (maskPositions (positionsOf name tokens) tokens) (positionsOf name tokens) = contexts
    at hsnippet htotal
  -- Both rankings score one pool over one set of contexts, with and without a scope.
  have hrank : renamer.rank scope name
      = renamer.scoreCandidates contexts (renamer.candidatePool contexts name) (some scope) := by
    rw [rank, hsnippet]
    rfl
  have hrankAt : renamer.rankAt tokens (positionsOf name tokens) name
      = renamer.scoreCandidates contexts (renamer.candidatePool contexts name) none := by
    rw [rankAt, hcontexts]
    rfl
  refine ⟨contexts, ⟨hsnippet, hcontexts, hrank, hrankAt, ?_⟩, ?_⟩
  · exact scoredAlike_sameNumber hpriors htotal scope
  · intro h
    have hscored : renamer.mode = .formatting ∨
        ClearOfZero log2 ∧ (scoredContexts contexts).total < 2 ^ 64 :=
      h.imp_right (And.imp_right total_scoredContexts_lt)
    rw [hrank, hrankAt]
    exact forall₂_scoreCandidates_none hpriors htotal hscored _ scope

/-- A logarithm that is right for one and for one half. -/
def coarseLog (p : Float) : Float := if p == 1 then 0 else -1

/-- The coarse logarithm is clear of zero, as it is never anything between minus one and zero. -/
theorem clearOfZero_coarseLog : ClearOfZero coarseLog := by
  intro p _ _
  rw [coarseLog]
  split
  next => exact .inl Number.exact_float_zero
  next =>
    have hreading : Number.Reading.ofFloat (-1) = .finite true Number.hiddenBit (-52) := by decide
    right
    rw [Number.exact, hreading, Number.Reading.exact, Number.hiddenBit]
    norm_num

/-- Finds everything certain but for `x`. -/
def certainRenamer : Renamer (FloatWithLog coarseLog) where
  model := {
    order := 2
    probability := fun ngram => if "x" ∈ ngram.tokens then (0.5 : Float) else (1 : Float)
    fillers := fun _ _ => .ofCounts [("a", 1)]
    isUnknown := fun _ => false }
  tokenizer := .code
  priors := []
  config := {}
  mode := .crossEntropy

/-- Two names are certain, so their scores are zeros, and those have different signs. -/
theorem rankAt_agreesByPosition_certain :
    certainRenamer.priors = [] ∧
      certainRenamer.tokenizer.texts "x = x ;" = .ok ["x", "=", "x", ";"] ∧ "x" ≠ "" ∧
      (∀ token ∈ ["x", "=", "x", ";"], Text.occurs ("%" ++ "x" ++ "%") token = false) ∧
      ClearOfZero coarseLog ∧
      certainRenamer.snippetContexts "x = x ;" "x"
        = .ok (contextsAt 2 [wildcard, "=", wildcard, ";"] (.ofList [0, 2])) ∧
      List.Forall₂ (Matched Number.SameNumber)
        (certainRenamer.rank (.ofSnippet "x = x ;" .var) "x").toList
        (certainRenamer.rankAt ["x", "=", "x", ";"] (.ofList [0, 2]) "x").toList := by
  have htokens : certainRenamer.tokenizer.texts "x = x ;" = .ok ["x", "=", "x", ";"] := by cbv
  have hwrapped : ∀ token ∈ ["x", "=", "x", ";"],
      Text.occurs ("%" ++ "x" ++ "%") token = false := by decide
  obtain ⟨contexts, hagrees, hranking⟩ := rankAt_agreesByPosition certainRenamer
    (.ofSnippet "x = x ;" .var) rfl htokens (by decide) hwrapped
  have hcontexts := hagrees.contextsAt_eq
  have htotal : contexts.total < 2 ^ 64 := by
    rw [← hcontexts, total_contextsAt]
    decide
  refine ⟨rfl, htokens, by decide, hwrapped, clearOfZero_coarseLog, ?_, ?_⟩
  · rw [← hcontexts] at hagrees
    exact hagrees.snippetContexts_eq
  · exact hranking (.inr ⟨clearOfZero_coarseLog, htotal⟩)

end Renamer

end NaturalNames
