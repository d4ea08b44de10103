import Mathlib.Analysis.Convex.Basic
import NaturalNames.Backoff.Mixture
import NaturalNames.Proofs.Backoff.WellFormed
import NaturalNames.Proofs.NGram
import NaturalNames.Proofs.Number.Real
import NaturalNames.Proofs.Training.PrefixCount

/-!
# `NaturalNames.Proofs.Backoff.Probability`: every probability is above zero and at most one

A probability is a quotient of two counts, discounted once for each token dropped. The counts
come first (`IsShare`): the divisor is never zero and the quotient never above one, since a
sequence of ids is counted no more often than its beginnings, and the unknown symbol alone makes
up for the one that a single id gets on top. The number follows, in exact arithmetic.
-/

set_option autoImplicit false

namespace NaturalNames

/-! ### Estimates -/

namespace Estimate

/-- The quotient is above zero and at most one. -/
def IsShare (e : Estimate) : Prop := 1 ≤ e.numerator ∧ e.numerator ≤ e.denominator

/-- The estimate with both counts modulo `2 ^ 64`. -/
def wrap (e : Estimate) : Estimate :=
  { e with numerator := e.numerator % 2 ^ 64, denominator := e.denominator % 2 ^ 64 }

/-- Words hold both counts of a share if they hold the divisor. -/
theorem IsShare.wrap_eq_self {e : Estimate} (h : e.IsShare) (hlt : e.denominator < 2 ^ 64) :
    e.wrap = e := by
  have hnumerator : e.numerator % 2 ^ 64 = e.numerator :=
    Nat.mod_eq_of_lt (Nat.lt_of_le_of_lt h.2 hlt)
  rw [wrap, hnumerator, Nat.mod_eq_of_lt hlt]

/-- In real arithmetic each discount is one multiplication. -/
theorem discount_real (factor x : ℝ) (n : Nat) : discount factor x n = factor ^ n * x := by
  induction n with
  | zero => rw [discount, pow_zero, one_mul]
  | succ n ih =>
    rw [discount, ih, pow_succ']
    exact (mul_assoc factor (factor ^ n) x).symm

/-- In real arithmetic an estimate is its quotient with its discounts. -/
theorem value_real (factor : ℝ) (e : Estimate) :
    e.value factor = factor ^ e.backoffs * (e.numerator / e.denominator) :=
  discount_real factor _ _

/-- A share that is discounted stays above zero and at most one. -/
theorem IsShare.value_mem_Ioc {e : Estimate} (h : e.IsShare) {factor : ℝ}
    (hfactor : 0 < factor ∧ factor < 1) : e.value factor ∈ Set.Ioc 0 1 := by
  have hnumerator : (0 : ℝ) < e.numerator := Nat.cast_pos.2 h.1
  have hle : (e.numerator : ℝ) ≤ e.denominator := Nat.cast_le.2 h.2
  have hdenominator : (0 : ℝ) < e.denominator := hnumerator.trans_le hle
  have hshare : (e.numerator / e.denominator : ℝ) ≤ 1 := (div_le_one hdenominator).2 hle
  rw [value_real]
  constructor
  · exact mul_pos (pow_pos hfactor.1 _) (div_pos hnumerator hdenominator)
  · exact mul_le_one₀ (pow_le_one₀ hfactor.1.le hfactor.2.le)
      (div_pos hnumerator hdenominator).le hshare

end Estimate

namespace BackoffModel

variable {model : BackoffModel}

/-- A single id has a share, as one is added to its count. -/
theorem isShare_unigram (h : model.counts.Falling) (hsize : 0 < model.vocabulary.size)
    (id : TokenId) : (model.unigram id).IsShare := by
  -- The one on top of the count is covered by the size of the vocabulary, which is not zero.
  have hcount : model.counts.count [id] ≤ model.counts.total := CountTrie.count_le_total h _
  exact ⟨Nat.le_add_left 1 _, show _ + 1 ≤ _ + _ by omega⟩

/-- Every estimate is a share: of the count of an n-gram in that of its beginning, or of a
single id. -/
theorem isShare_estimate (h : model.counts.Falling) (hsize : 0 < model.vocabulary.size)
    (ids : List TokenId) : (model.estimate ids).IsShare := by
  -- Along the tokens that are dropped. The estimate that is returned is that of a suffix, and a
  -- discount changes neither of its counts.
  fun_induction estimate model ids with
  | case1 => exact ⟨Nat.le_refl 1, Nat.le_refl 1⟩
  | case2 id => exact isShare_unigram h hsize id
  | case3 id next rest ids n hpos =>
    exact ⟨hpos, CountTrie.count_le_of_prefix h (List.dropLast_prefix ids)⟩
  | case4 id next rest ids n hzero shorter ih => exact ih

/-- At least one id is left when the model has backed off. -/
theorem backoffs_estimate_lt (model : BackoffModel) {ids : List TokenId} (hids : ids ≠ []) :
    (model.estimate ids).backoffs < ids.length := by
  fun_induction estimate model ids with
  | case1 => exact absurd rfl hids
  | case2 id => exact Nat.one_pos
  | case3 id next rest ids n hpos => exact Nat.succ_pos _
  | case4 id next rest ids n hzero shorter ih => exact Nat.succ_lt_succ (ih (List.cons_ne_nil _ _))

/-- An n-gram has as many ids as tokens. -/
theorem length_idsOf (model : BackoffModel) (ngram : NGram) :
    (model.idsOf ngram.tokens).length = ngram.length := by
  rw [idsOf, List.length_map]
  rfl

/-- The model backs off fewer times than there are tokens that it looks at. -/
theorem backoffs_estimateOf_lt (h : model.WellFormed) (ngram : NGram) :
    (model.estimateOf ngram).backoffs < min ngram.length model.order := by
  have horder := h.order_pos
  have hids : model.idsOf (ngram.suffix model.order).tokens ≠ [] := by
    rw [idsOf, ne_eq, List.map_eq_nil_iff]
    exact (ngram.suffix model.order).nonempty
  have hlt := backoffs_estimate_lt model hids
  rw [length_idsOf, NGram.length_suffix] at hlt
  rw [estimateOf]
  omega

/-- The estimate of every n-gram is a share with discounts. -/
theorem isShare_estimateOf (h : model.WellFormed) (ngram : NGram) :
    (model.estimateOf ngram).IsShare := isShare_estimate h.counts.falling h.vocabulary_pos _

/-! ### Probabilities -/

/-- In real arithmetic the probability is the quotient of two counts with the discounts. -/
theorem probability_real (model : BackoffModel) (ngram : NGram) :
    (model.probability ngram : ℝ)
      = (Number.exact model.factor : ℝ) ^ (model.estimateOf ngram).backoffs
        * ((model.estimateOf ngram).numerator / (model.estimateOf ngram).denominator) :=
  Estimate.value_real _ _

/-- A factor between zero and one stands for a number between zero and one. -/
theorem exact_factor_mem (h : 0 < model.factor ∧ model.factor < 1) :
    (0 : ℝ) < Number.exact model.factor ∧ (Number.exact model.factor : ℝ) < 1 := by
  have hfactor := Number.exact_mem_Ioo h
  exact ⟨Rat.cast_pos.2 hfactor.1, by exact_mod_cast hfactor.2⟩

/-- In real arithmetic the probability of a well-formed model is above zero and at most one. -/
theorem WellFormed.probability_mem_Ioc (h : model.WellFormed) (ngram : NGram) :
    (model.probability ngram : ℝ) ∈ Set.Ioc 0 1 :=
  (isShare_estimateOf h ngram).value_mem_Ioc (exact_factor_mem h.factor_mem)

/-- Only the last tokens of an n-gram matter to its probability. -/
theorem probability_suffix {α : Type} [Arithmetic α] (model : BackoffModel) (ngram : NGram) :
    (model.probability (ngram.suffix model.order) : α) = model.probability ngram := by
  rw [probability, probability, estimateOf, estimateOf, NGram.suffix_suffix]

end BackoffModel

/-! ### Mixtures -/

namespace Mixture

/-- Two models can be mixed if the weight is one between zero and one. -/
theorem ofModels_eq_ok_iff {globalModel localModel : BackoffModel} {weight : Float}
    {mixture : Mixture} :
    ofModels globalModel localModel weight = .ok mixture ↔
      (0 ≤ weight ∧ weight ≤ 1) ∧ mixture = ⟨globalModel, localModel, weight⟩ := by
  rw [ofModels]
  split
  next h => exact ⟨fun hmixture => ⟨h, (Except.ok.inj hmixture).symm⟩, fun hm => hm.2 ▸ rfl⟩
  next h =>
    refine ⟨fun hmixture => ?_, fun hm => absurd hm.1 h⟩
    cases hmixture

/-- In real arithmetic a mixture takes the weighted mean of its two models. -/
theorem probability_real (mixture : Mixture) (ngram : NGram) :
    (mixture.probability ngram : ℝ)
      = (Number.exact mixture.weight : ℝ) * mixture.globalModel.probability ngram
        + (1 - Number.exact mixture.weight) * mixture.localModel.probability ngram := by
  rw [probability, BackoffModel.probability_suffix, Arithmetic.ofFloat_real, Arithmetic.ofNat_real,
    Nat.cast_one]

/-- A mean lies between what it is a mean of. -/
theorem probability_mem_Icc (mixture : Mixture) (hweight : 0 ≤ mixture.weight ∧ mixture.weight ≤ 1)
    (ngram : NGram) :
    (mixture.probability ngram : ℝ) ∈ Set.Icc
      (min (mixture.globalModel.probability ngram) (mixture.localModel.probability ngram))
      (max (mixture.globalModel.probability ngram) (mixture.localModel.probability ngram)) := by
  have hexact := Number.exact_mem_Icc hweight
  have hnonneg : (0 : ℝ) ≤ Number.exact mixture.weight := Rat.cast_nonneg.2 hexact.1
  have hle : (Number.exact mixture.weight : ℝ) ≤ 1 := by exact_mod_cast hexact.2
  rw [probability_real]
  exact ⟨Convex.min_le_combo _ _ hnonneg (sub_nonneg.2 hle) (add_sub_cancel _ _),
    Convex.combo_le_max _ _ hnonneg (sub_nonneg.2 hle) (add_sub_cancel _ _)⟩

end Mixture

/-! ### Models from training -/

open BackoffModel Training

/-- **Every probability is above zero and at most one.** Take two models, each trained or
untrained, with configurations of their own, and any n-gram. The first model backs off fewer
times than it looks at tokens, and then divides two counts of which the divisor is the greater and
neither is zero. So its probability, in exact arithmetic, is above zero and at most one. That of a
mixture of both lies between theirs, whichever weight it accepts. -/
theorem probability_bounds {config config' : ModelConfig} {model model' : BackoffModel}
    (h : Obtained config model) (h' : Obtained config' model') (ngram : NGram) :
    (model.estimateOf ngram).backoffs < min ngram.length config.order ∧
      1 ≤ (model.estimateOf ngram).numerator ∧
      (model.estimateOf ngram).numerator ≤ (model.estimateOf ngram).denominator ∧
      (model.probability ngram : ℝ)
        = (Number.exact config.backoffFactor : ℝ) ^ (model.estimateOf ngram).backoffs
          * ((model.estimateOf ngram).numerator / (model.estimateOf ngram).denominator) ∧
      (model.probability ngram : ℝ) ∈ Set.Ioc 0 1 ∧
      ∀ (weight : Float) (mixture : Mixture), Mixture.ofModels model model' weight = .ok mixture →
        (mixture.probability ngram : ℝ) ∈ Set.Icc
          (min (model.probability ngram) (model'.probability ngram))
          (max (model.probability ngram) (model'.probability ngram)) ∧
        (mixture.probability ngram : ℝ) ∈ Set.Ioc 0 1 := by
  have hshare := isShare_estimateOf h.wellFormed ngram
  have hmem := h.wellFormed.probability_mem_Ioc ngram
  have hmem' := h'.wellFormed.probability_mem_Ioc ngram
  refine ⟨?_, hshare.1, hshare.2, ?_, hmem, ?_⟩
  · rw [← h.order_eq]
    exact backoffs_estimateOf_lt h.wellFormed ngram
  · rw [← h.factor_eq]
    exact BackoffModel.probability_real model ngram
  · -- A mixture lies between its models, and so it is where they are.
    intro weight mixture hmixture
    obtain ⟨hweight, rfl⟩ := Mixture.ofModels_eq_ok_iff.1 hmixture
    have hbetween := Mixture.probability_mem_Icc ⟨model, model', weight⟩ hweight ngram
    exact ⟨hbetween, (lt_min hmem.1 hmem'.1).trans_le hbetween.1,
      hbetween.2.trans (max_le hmem.2 hmem'.2)⟩

/-- The model of the letters looks at two of the three tokens and drops one of them. It is mixed
with a model that knows nothing and has another order. -/
theorem probability_bounds_pair :
    ∃ (model model' : BackoffModel) (mixture : Mixture) (ngram : NGram),
      Obtained pairConfig model ∧ Obtained { pairConfig with order := 3 } model' ∧
      Mixture.ofModels model model' 0.25 = .ok mixture ∧
      ngram.tokens = ["b", "=", "a"] ∧ model.estimateOf ngram = ⟨1, 3, 8⟩ ∧
      1 < min ngram.length 2 ∧
      (model.probability ngram : ℝ) ∈ Set.Ioc 0 1 ∧
      (mixture.probability ngram : ℝ) ∈ Set.Ioc 0 1 := by
  have hmodel : Obtained pairConfig (inOneGo letters pairConfig pairUnits).model :=
    .trained (train_eq_inOneGo (.inTurn 4) letters (by decide) (by decide))
  obtain ⟨model', hmodel'⟩ : ∃ model', Obtained { pairConfig with order := 3 } model' :=
    ⟨_, .untrained rfl⟩
  have hmixture : Mixture.ofModels (inOneGo letters pairConfig pairUnits).model model' 0.25
      = .ok ⟨_, model', 0.25⟩ := Mixture.ofModels_eq_ok_iff.2 ⟨by decide, rfl⟩
  have hestimate : (inOneGo letters pairConfig pairUnits).model.estimateOf
      ⟨["b", "=", "a"], by decide⟩ = ⟨1, 3, 8⟩ := by decide +kernel
  obtain ⟨hbackoffs, -, -, -, hmem, hmean⟩ :=
    probability_bounds hmodel hmodel' ⟨["b", "=", "a"], by decide⟩
  rw [hestimate] at hbackoffs
  exact ⟨_, model', _, _, hmodel, hmodel', hmixture, rfl, hestimate, hbackoffs, hmem,
    (hmean _ _ hmixture).2⟩

end NaturalNames
