import Mathlib
import NaturalNames.Proofs.Number.Real
import NaturalNames.Proofs.Scorer.Report

/-!
# `NaturalNames.Proofs.Scorer.Keeping`: every reported name keeps a chance to stay

A suggestion gives each of its renamings a weight that goes by the score, and the share of those
that leave the name alone is the probability that the name stays. Floats take that weight from a
power of two, which is positive as long as it is not rounded. Nothing else about it matters here:
the theorems hold for any positive weights in ℝ.

A share is positive if a renaming that leaves the name alone is among those of the suggestion. There
is one in every suggestion that a scorer makes. A ranking without one gives no suggestion, and a
ranking that is cut off at a threshold holds the symbol for unknown names. Here that symbol leaves
the name alone also where the thresholds do not take it so (`useUnknown`): they decide about gaps,
but not about shares.

With a share of zero the logarithm of a report would be that of zero. `exp2_logKeepShare` says what
it is instead.
-/

set_option autoImplicit false

namespace NaturalNames

/-- In real arithmetic the sum of a list is its sum. -/
theorem Arithmetic.sum_real (xs : List ℝ) : Arithmetic.sum xs = xs.sum := by
  rw [Arithmetic.sum, List.sum_eq_foldl, Arithmetic.ofNat_real, Nat.cast_zero, neg_zero]

/-! ### Weights -/

/-- The weight of some renamings together. -/
noncomputable def weightOf {α : Type} (weight : α → ℝ) (renamings : List (Renaming α)) : ℝ :=
  (renamings.map fun r => weight r.score).sum

section

variable {α : Type} {weight : α → ℝ} (hweight : ∀ score, 0 < weight score)

include hweight

/-- Weights add up to no less than zero. -/
theorem weightOf_nonneg (renamings : List (Renaming α)) : 0 ≤ weightOf weight renamings := by
  apply List.sum_nonneg
  simpa using fun r _ => (hweight (Renaming.score r)).le

/-- Renamings weigh something if there are any. -/
theorem weightOf_pos {renamings : List (Renaming α)} (h : renamings ≠ []) :
    0 < weightOf weight renamings := by
  apply List.sum_pos
  · simpa using fun r _ => hweight (Renaming.score r)
  · simpa using h

end

/-! ### Shares -/

namespace Suggestion

variable {α : Type} [Arithmetic α]

/-- The renamings that leave the name alone. -/
def keepers (s : Suggestion α) : List (Renaming α) :=
  s.renamings.toList.filter (Ranking.keeps s.identifier true)

/-- All other renamings. -/
def changes (s : Suggestion α) : List (Renaming α) :=
  s.renamings.toList.filter fun r => !Ranking.keeps s.identifier true r

/-- Nothing is to be changed if every renaming keeps the name or stands for unknown ones. -/
theorem changes_eq_nil_iff {s : Suggestion α} :
    s.changes = [] ↔ ∀ r ∈ s.renamings.toList, r.name = s.identifier ∨ r.name = unknownSymbol := by
  simp [changes, Ranking.keeps, Renaming.isUnknown, or_iff_not_imp_left]

/-- What holds of the share of a suggestion that is made of positive weights. -/
structure KeepsShare (weight : α → ℝ) (s : Suggestion α) : Prop where
  pos : 0 < s.keepShare weight
  le_one : s.keepShare weight ≤ 1
  eq_one_iff : s.keepShare weight = 1 ↔
    ∀ r ∈ s.renamings.toList, r.name = s.identifier ∨ r.name = unknownSymbol

section

variable {weight : α → ℝ} (hweight : ∀ score, 0 < weight score)

include hweight

/-- The share is that of the weight that stays in the weight that stays or changes. -/
theorem keepShare_eq_div (s : Suggestion α) :
    s.keepShare weight
      = weightOf weight s.keepers / (weightOf weight s.keepers + weightOf weight s.changes) := by
  -- Keepers and changes are all the renamings, each once.
  have htotal : weightOf weight s.renamings.toList
      = weightOf weight s.keepers + weightOf weight s.changes := by
    rw [weightOf, weightOf, weightOf, ← List.sum_append, ← List.map_append]
    exact ((List.filter_append_perm _ _).map _).sum_eq.symm
  rw [← htotal, keepShare]
  simp only [Arithmetic.sum_real, Arithmetic.ofNat_real, Nat.cast_zero]
  split
  -- Without weight both sides are zero, the right one as a quotient by zero.
  next hle =>
    have hzero : weightOf weight s.renamings.toList = 0 :=
      le_antisymm hle (weightOf_nonneg hweight _)
    rw [hzero, div_zero]
  next =>
    simp only [div_eq_mul_inv, List.sum_map_mul_right]
    rfl

/-- The weight of one keeper is enough for all that is said of the share. -/
theorem keepsShare (s : Suggestion α)
    (h : ∃ r ∈ s.renamings.toList, Ranking.keeps s.identifier true r = true) :
    s.KeepsShare weight := by
  obtain ⟨r, hr, hkeeps⟩ := h
  have hkept : 0 < weightOf weight s.keepers :=
    weightOf_pos hweight (List.ne_nil_of_mem (List.mem_filter.2 ⟨hr, hkeeps⟩))
  have hchanges := weightOf_nonneg hweight s.changes
  have htotal := add_pos_of_pos_of_nonneg hkept hchanges
  have hshare := keepShare_eq_div hweight s
  constructor
  case pos =>
    rw [hshare]
    exact div_pos hkept htotal
  case le_one =>
    rw [hshare]
    exact div_le_one_of_le₀ (le_add_of_nonneg_right hchanges) htotal.le
  -- All of the weight is kept exactly if the changes have none, that is if there are none.
  case eq_one_iff =>
    rw [hshare, div_eq_one_iff_eq htotal.ne', left_eq_add, ← changes_eq_nil_iff]
    constructor
    · intro hzero
      by_contra hne
      exact (weightOf_pos hweight hne).ne' hzero
    · intro hnil
      rw [hnil]
      rfl

end

end Suggestion

/-! ### Reports -/

namespace Report

variable {α : Type} [Arithmetic α]

/-- The logarithm of the product of the shares in a report, when each renaming has a weight that
depends on its score. -/
noncomputable def logKeepShare (weight : α → ℝ) (report : Report α) : ℝ :=
  Arithmetic.sum (report.suggestions.map fun s => Arithmetic.log2 (s.keepShare weight))

/-- In exact arithmetic the probability that names stay is made of these shares. -/
theorem logKeepProbability_eq_logKeepShare (report : Report ℝ) :
    report.logKeepProbability = report.logKeepShare fun score => Arithmetic.exp2 (-score) := rfl

variable {weight : α → ℝ} {report : Report α}

/-- The logarithm of a report is the logarithm of a probability, if no share is zero. -/
theorem exp2_logKeepShare (h : ∀ s ∈ report.suggestions, 0 < s.keepShare weight) :
    (2 : ℝ) ^ report.logKeepShare weight
      = (report.suggestions.map fun s => s.keepShare weight).prod := by
  rw [logKeepShare, Arithmetic.sum_real]
  revert h
  induction report.suggestions with
  | nil => simp
  | cons s rest ih =>
    intro h
    obtain ⟨hs, hrest⟩ := List.forall_mem_cons.1 h
    have hlog : (2 : ℝ) ^ (Arithmetic.log2 (s.keepShare weight) : ℝ) = s.keepShare weight :=
      Real.rpow_logb two_pos (by norm_num) hs
    rw [List.map_cons, List.sum_cons, Real.rpow_add two_pos, hlog, ih hrest, List.map_cons,
      List.prod_cons]

/-- A product of shares is one at most, so its logarithm is not positive. -/
theorem logKeepShare_nonpos (h : ∀ s ∈ report.suggestions, s.KeepsShare weight) :
    report.logKeepShare weight ≤ 0 := by
  have hlog : ∀ s ∈ report.suggestions, Arithmetic.log2 (s.keepShare weight) ≤ (0 : ℝ) :=
    fun s hs => Real.logb_nonpos one_lt_two (h s hs).pos.le (h s hs).le_one
  rw [logKeepShare, Arithmetic.sum_real]
  calc (report.suggestions.map fun s => Arithmetic.log2 (s.keepShare weight)).sum
      ≤ (report.suggestions.map fun _ => (0 : ℝ)).sum := List.sum_le_sum hlog
    _ = 0 := by simp

end Report

/-! ### What a scorer makes -/

namespace Scorer

variable {α : Type} [Arithmetic α] {scorer : Scorer α} {s : Suggestion α}

/-- There is no suggestion without a renaming that leaves the name alone. -/
theorem exists_keeps_of_mem_suggestInTurn {occurrences : List Occurrence}
    (h : s ∈ scorer.suggestInTurn occurrences) :
    ∃ r ∈ s.renamings.toList, Ranking.keeps s.identifier true r = true := by
  obtain ⟨o, -, ho⟩ := List.mem_filterMap.1 ((Suggestion.perm_sort _).mem_iff.1 h)
  have hrankable : scorer.Rankable o := isSome_suggest_iff.1 (by rw [ho]; rfl)
  obtain ⟨gap, -, rfl⟩ := Option.map_eq_some_iff.1 ho
  obtain ⟨r, hr, hkeeps⟩ := hrankable
  refine ⟨r, hr, ?_⟩
  simp only [Ranking.keeps, Bool.or_eq_true, Bool.and_eq_true, Bool.true_and] at hkeeps ⊢
  exact hkeeps.imp_right And.right

/-- A ranking that is cut down holds the symbol for unknown names. -/
theorem exists_keeps_cutDown (s : Suggestion α) :
    ∃ r ∈ (scorer.cutDown s).renamings.toList,
      Ranking.keeps (scorer.cutDown s).identifier true r = true := by
  have hcut : ∃ r ∈ (scorer.cutDown s).renamings.toList, r.isUnknown = true :=
    Ranking.exists_isUnknown_applyThreshold
  obtain ⟨r, hr, hunknown⟩ := hcut
  exact ⟨r, hr, by simp [Ranking.keeps, hunknown]⟩

/-- A suggestion that is reported has a renaming that keeps the name. -/
theorem exists_keeps_of_mem_scoreOccurrences {machine : Machine} {occurrences : List Occurrence}
    {filter : Bool}
    (h : s ∈ (scorer.scoreOccurrences machine occurrences filter).suggestions) :
    ∃ r ∈ s.renamings.toList, Ranking.keeps s.identifier true r = true := by
  rw [scoreOccurrences, rankSuggestions_eq_suggestInTurn, aggregate,
    (Suggestion.perm_sort _).mem_iff, List.mem_filter] at h
  obtain ⟨hmem, -⟩ := h
  cases filter with
  | false => exact exists_keeps_of_mem_suggestInTurn hmem
  | true =>
    obtain ⟨full, -, rfl⟩ := List.mem_map.1 hmem
    exact exists_keeps_cutDown full

/-- **Every reported name keeps a chance to stay.** Whatever the scorer, the occurrences and the
positive weights of scores: in every suggestion of a ranking or a report, filtered or not, the share
of what leaves the name alone is positive and at most one, and it is one just where all renamings
are the name itself or the symbol for unknown names. So the logarithm of a report is not positive,
and it is the logarithm of the product of the shares. -/
theorem keeps_a_share (scorer : Scorer α) (machine : Machine) (occurrences : List Occurrence)
    (weight : α → ℝ) (hweight : ∀ score, 0 < weight score) :
    (∀ s ∈ scorer.rankSuggestions machine occurrences, s.KeepsShare weight) ∧
    ∀ filter : Bool, let report := scorer.scoreOccurrences machine occurrences filter
      (∀ s ∈ report.suggestions, s.KeepsShare weight) ∧
      (2 : ℝ) ^ report.logKeepShare weight
        = (report.suggestions.map fun s => s.keepShare weight).prod ∧
      report.logKeepShare weight ≤ 0 := by
  constructor
  · intro s hs
    rw [rankSuggestions_eq_suggestInTurn] at hs
    exact s.keepsShare hweight (exists_keeps_of_mem_suggestInTurn hs)
  · intro filter report
    -- A report lists suggestions of the ranking with renamings left out, but one that keeps the
    -- name stays.
    have hshares : ∀ s ∈ report.suggestions, s.KeepsShare weight := fun s hs =>
      s.keepsShare hweight (exists_keeps_of_mem_scoreOccurrences hs)
    exact ⟨hshares, Report.exp2_logKeepShare fun s hs => (hshares s hs).pos,
      Report.logKeepShare_nonpos hshares⟩

/-- The name `x` is ranked with another name, which takes some of the weight but not all of it. -/
theorem keeps_a_share_fussy :
    let x : Occurrence := ⟨.ofSnippet "int x ;" .var, "x"⟩
    let weight : Float → ℝ := fun score => if 0 < score then 1 / 2 else 1
    (∀ score, 0 < weight score) ∧
    (∃ s ∈ fussyScorer.rankSuggestions (.inTurn 2) [x],
      s.identifier = "x" ∧ "good" ∈ s.renamings.toList.map Renaming.name ∧
        0 < s.keepShare weight ∧ s.keepShare weight < 1) ∧
    (fussyScorer.scoreOccurrences (.inTurn 2) [x] true).logKeepShare weight ≤ 0 := by
  intro x weight
  have hweight : ∀ score, 0 < weight score := by
    intro score
    show (0 : ℝ) < if 0 < score then 1 / 2 else 1
    split <;> norm_num
  have htokens : fussyScorer.renamer.tokenizer.texts "int x ;" = .ok ["int", "x", ";"] := by cbv
  have hpool (contexts : ContextSet) : (fussyScorer.renamer.candidatePool contexts "x").toList
      = [unknownSymbol, "bad", "good", "x"] := by cbv
  -- The ranking holds a change, `good`, so part of the weight goes to it.
  have hnames : ∀ name,
      name ∈ (fussyScorer.renamer.rank x.scope x.name).toList.map Renaming.name ↔
        name ∈ [unknownSymbol, "good", "x"] :=
    (Renamer.ranksScorable_rank x.scope x.name htokens).mem_iff_of_pool (hpool _)
      (by decide +kernel)
  obtain ⟨hranked, hreports⟩ := keeps_a_share fussyScorer (.inTurn 2) [x] weight hweight
  have hrankable : fussyScorer.Rankable x := by
    obtain ⟨r, hr, hname⟩ := List.mem_map.1 ((hnames "x").2 (by decide))
    exact ⟨r, hr, by simp [Ranking.keeps, hname, x]⟩
  obtain ⟨s, hs⟩ := Option.isSome_iff_exists.1 (isSome_suggest_iff.2 hrankable)
  have hmem : s ∈ fussyScorer.rankSuggestions (.inTurn 2) [x] := by
    rw [rankSuggestions_eq_suggestInTurn, suggestInTurn, (Suggestion.perm_sort _).mem_iff]
    exact List.mem_filterMap.2 ⟨x, List.mem_singleton_self x, hs⟩
  obtain ⟨gap, -, rfl⟩ := Option.map_eq_some_iff.1 hs
  have hgood := (hnames "good").2 (by decide)
  have hshare := hranked _ hmem
  refine ⟨hweight, ⟨_, hmem, rfl, hgood, hshare.pos, lt_of_le_of_ne hshare.le_one fun hone => ?_⟩,
    (hreports true).2.2⟩
  -- A share of one would make `good` a name that is kept.
  obtain ⟨r, hr, hname⟩ := List.mem_map.1 hgood
  have hkept : r.name = "x" ∨ r.name = unknownSymbol := hshare.eq_one_iff.1 hone r hr
  rw [hname] at hkept
  exact absurd hkept (by decide)

end Scorer

end NaturalNames
