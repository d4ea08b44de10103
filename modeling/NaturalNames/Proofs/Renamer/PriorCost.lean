import Mathlib
import NaturalNames.Proofs.Number.Monotone
import NaturalNames.Proofs.Number.Real
import NaturalNames.Proofs.Prior.Share
import NaturalNames.Renamer

/-!
# `NaturalNames.Proofs.Renamer.PriorCost`: what it costs not to be known to a prior

A name that a prior finds rare costs the bits of its probability, which have no bound. A name that
the prior has never seen has a fixed price, the penalty. So a rare name may cost more than one that
was never seen: with 128 names by the default penalty of six bits, if it is one of them
(`rare_behind_unseen`).

The prices are in the order that one expects as long as the rare name costs no more than the penalty
(`seen_not_behind_unseen`). That goes over to the scores of names with the same likelihood. Floats
keep that order although they round, and `OrderedArithmetic` is what is used of them.
-/

set_option autoImplicit false

namespace NaturalNames

/-! ### Numbers that keep the order of prices -/

/-- Scores in these numbers are in the order of the prices that are in them. -/
class OrderedArithmetic (α : Type) [Arithmetic α] : Prop where
  sum_singleton : ∀ x : α, Arithmetic.sum [x] = x
  not_lt_self : ∀ x : α, ¬ x < x
  /-- What is not more stays so when the same is taken from both and they are divided. -/
  not_div_sub_lt : ∀ {x y : α}, x ≤ y → ∀ (b : α) (n : Nat),
    ¬ (y - b) / Arithmetic.ofNat n < (x - b) / Arithmetic.ofNat n

instance : OrderedArithmetic Float where
  sum_singleton := Number.negative_zero_add
  not_lt_self := Number.not_float_lt_self
  not_div_sub_lt := Number.not_div_sub_lt_div_sub

instance : OrderedArithmetic ℝ where
  sum_singleton x := by
    show -((0 : ℕ) : ℝ) + x = x
    rw [Nat.cast_zero, neg_zero, zero_add]
  not_lt_self := lt_irrefl
  not_div_sub_lt h b n :=
    not_lt.2 (div_le_div_of_nonneg_right (sub_le_sub_right h b) (Nat.cast_nonneg n))

namespace Renamer

section

variable {α : Type} [Arithmetic α] {renamer : Renamer α} {prior : NamePrior α}
  {name a b : String} {scope : Scope}

/-- A name that a prior has seen costs its logarithm. -/
theorem priceUnder_of_seen (h : Arithmetic.ofNat 0 < prior.probability name scope) :
    renamer.priceUnder name scope prior = -Arithmetic.log2 (prior.probability name scope) :=
  if_pos h

/-- A name that only the model knows costs the penalty. -/
theorem priceUnder_of_unseen (h : ¬ Arithmetic.ofNat 0 < prior.probability name scope)
    (hknown : renamer.model.isUnknown name = false) :
    renamer.priceUnder name scope prior = Arithmetic.ofFloat renamer.config.priorPenalty := by
  rw [priceUnder]
  simp only [if_neg h, hknown, Bool.false_eq_true, if_false]

variable [OrderedArithmetic α]

/-- With one prior the price is that under it. -/
theorem priorCost_of_priors_eq_singleton (h : renamer.priors = [prior]) :
    renamer.priorCost name scope = renamer.priceUnder name scope prior := by
  rw [priorCost, h]
  exact OrderedArithmetic.sum_singleton _

/-- Of names with the same likelihood, one that costs no more has no higher score. -/
theorem exists_scoreCandidate_of_priorCost_le
    (h : renamer.priorCost a scope ≤ renamer.priorCost b scope) {contexts : ContextSet} {bits : α}
    (ha : renamer.logLikelihood contexts a = .ok bits)
    (hb : renamer.logLikelihood contexts b = .ok bits) :
    ∃ ra rb, renamer.scoreCandidate contexts (some scope) a = .ok ra ∧
      renamer.scoreCandidate contexts (some scope) b = .ok rb ∧ ¬ rb.score < ra.score := by
  rw [scoreCandidate, scoreCandidate, ha, hb]
  refine ⟨_, _, rfl, rfl, ?_⟩
  -- A score by formatting leaves the price out.
  cases renamer.mode with
  | crossEntropy => exact OrderedArithmetic.not_div_sub_lt h bits _
  | formatting => exact OrderedArithmetic.not_lt_self (-bits)

end

/-! ### A prior with a rare name -/

/-- In exact arithmetic the condition is one on the probability. -/
theorem neg_log2_le_iff {p c : ℝ} (hp : 0 < p) : -Arithmetic.log2 p ≤ c ↔ (2 : ℝ) ^ (-c) ≤ p := by
  show -Real.logb 2 p ≤ c ↔ _
  rw [neg_le, Real.le_logb_iff_rpow_le one_lt_two hp]

/-- Of 128 names of a type one is rare. -/
def lopsidedPrior : TypePrior :=
  ⟨(Distribution.empty.addCount "rare" "int" 1).addCount "common" "int" 127⟩

/-- The lopsided prior comes from counting, so its totals are the sums of its counts. -/
theorem wellFormed_lopsidedPrior : lopsidedPrior.byType.WellFormed :=
  (Distribution.WellFormed.empty.addCount "rare" "int" 1).addCount "common" "int" 127

/-- Finds all names equally likely but for the prior, by the default settings. -/
noncomputable def lopsidedRenamer : Renamer ℝ where
  model := {
    order := 1
    probability := fun _ => Arithmetic.ofNat 1 / Arithmetic.ofNat 2
    fillers := fun _ _ => .empty
    isUnknown := fun token => token = unknownSymbol }
  tokenizer := .code
  priors := [lopsidedPrior.namePrior]
  config := {}
  mode := .crossEntropy

/-- A place for a number. -/
def intScope : Scope := { Scope.ofSnippet "" .var with inferredType := some "int" }

/-- Of 128 observations each name has its share. -/
theorem probability_lopsidedPrior (name : String) :
    (lopsidedPrior.namePrior.probability name intScope : ℝ)
      = (lopsidedPrior.byType.count name "int" : ℕ) / 128 := by
  have htotal : lopsidedPrior.byType.totals.count "int" = 128 := by decide
  show (lopsidedPrior.byType.probability name "int" : ℝ) = _
  rw [Distribution.probability_real, htotal]
  rfl

/-- The rare name was seen once. -/
theorem probability_rare :
    (lopsidedPrior.namePrior.probability "rare" intScope : ℝ) = 2 ^ (-7 : ℝ) := by
  have hcount : lopsidedPrior.byType.count "rare" "int" = 1 := by decide
  rw [probability_lopsidedPrior, hcount, Real.rpow_neg two_pos.le]
  norm_num

/-- The unseen name was not seen at all. -/
theorem probability_unseen : (lopsidedPrior.namePrior.probability "unseen" intScope : ℝ) = 0 := by
  have hcount : lopsidedPrior.byType.count "unseen" "int" = 0 := by decide
  rw [probability_lopsidedPrior, hcount, Nat.cast_zero, zero_div]

/-- Six is exact in floats. -/
theorem ofFloat_six : (Arithmetic.ofFloat 6 : ℝ) = 6 := by
  have hreading : Number.Reading.ofFloat 6 = .finite false (3 * 2 ^ 51) (-50) := by decide
  have hexact : Number.exact 6 = 6 := by
    rw [Number.exact, hreading, Number.Reading.exact]
    norm_num
  rw [Arithmetic.ofFloat_real, hexact]
  norm_num

/-- Every name is as likely as not in an open n-gram. -/
theorem logProbability_lopsidedRenamer {ngram : NGram}
    (h : ∃ token ∈ ngram.tokens, NGram.isOpen token = true) (name : String) :
    lopsidedRenamer.logProbability name ngram = .ok (-1) := by
  obtain ⟨filled, hfilled⟩ := NGram.exists_substitute_eq_ok h name
  have hhalf : lopsidedRenamer.model.probability filled = 1 / 2 := by
    show ((1 : ℕ) : ℝ) / (2 : ℕ) = 1 / 2
    norm_num
  rw [logProbability, hfilled]
  dsimp only
  rw [hhalf, if_neg]
  · show Except.ok (Real.logb 2 (1 / 2)) = Except.ok (-1)
    rw [one_div, Real.logb_inv, Real.logb_self_eq_one one_lt_two]
  · rintro (hinfinite | hle)
    · cases hinfinite
    · rw [Arithmetic.ofNat_real] at hle
      norm_num at hle

/-- By itself, too, every name is as likely as not. -/
theorem logLikelihood_lopsidedRenamer (name : String) :
    lopsidedRenamer.logLikelihood loneContext name = .ok (-1) := by
  have hentries : loneContext.entries = [(.single wildcard, 1)] := rfl
  have hopen : ∃ token ∈ (NGram.single wildcard).tokens, NGram.isOpen token = true := by decide
  rw [logLikelihood, hentries, List.foldlM_cons]
  dsimp only
  rw [logProbability_lopsidedRenamer hopen]
  show Except.ok (((0 : ℕ) : ℝ) + -1 * ((1 : ℕ) : ℝ)) = _
  norm_num

/-- Seven bits are what the rare name costs, which is more than the penalty. -/
theorem priorCost_rare : lopsidedRenamer.priorCost "rare" intScope = 7 := by
  have hprice : -Real.logb 2 ((2 : ℝ) ^ (-7 : ℝ)) = 7 := by
    rw [Real.logb_rpow two_pos (by norm_num), neg_neg]
  have hseen : (Arithmetic.ofNat 0 : ℝ) < lopsidedPrior.namePrior.probability "rare" intScope := by
    rw [probability_rare, Arithmetic.ofNat_real, Nat.cast_zero]
    positivity
  rw [priorCost_of_priors_eq_singleton rfl, priceUnder_of_seen hseen, probability_rare]
  exact hprice

/-- The unseen name costs the penalty. -/
theorem priorCost_unseen : lopsidedRenamer.priorCost "unseen" intScope = 6 := by
  have hunseen : ¬ (Arithmetic.ofNat 0 : ℝ)
      < lopsidedPrior.namePrior.probability "unseen" intScope := by
    rw [probability_unseen, Arithmetic.ofNat_real, Nat.cast_zero]
    exact lt_irrefl 0
  rw [priorCost_of_priors_eq_singleton rfl, priceUnder_of_unseen hunseen (by decide)]
  exact ofFloat_six

/-- The score of a name is its price and the one bit that every name has. -/
theorem scoreCandidate_lopsidedRenamer (name : String) :
    lopsidedRenamer.scoreCandidate loneContext (some intScope) name = .ok {
      name := name
      score := (lopsidedRenamer.priorCost name intScope - -1) / Arithmetic.ofNat 1
      contexts := 1
      scope := some intScope } := by
  rw [scoreCandidate, logLikelihood_lopsidedRenamer]
  rfl

/-- The penalty is less than what a rare name costs. A name that the prior has never seen is scored
better then, although the model finds both equally likely. -/
theorem rare_behind_unseen :
    lopsidedRenamer.config.validate = .ok () ∧
    (∃ prior, lopsidedRenamer.priors = [prior] ∧
      (∀ name scope, prior.probability name scope ∈ Set.Icc 0 1) ∧
      0 < prior.probability "rare" intScope ∧ prior.probability "unseen" intScope = 0) ∧
    lopsidedRenamer.model.isUnknown "rare" = false ∧
    lopsidedRenamer.model.isUnknown "unseen" = false ∧
    lopsidedRenamer.priorCost "unseen" intScope < lopsidedRenamer.priorCost "rare" intScope ∧
    ∃ bits ra rb, lopsidedRenamer.logLikelihood loneContext "rare" = .ok bits ∧
      lopsidedRenamer.logLikelihood loneContext "unseen" = .ok bits ∧
      lopsidedRenamer.scoreCandidate loneContext (some intScope) "rare" = .ok ra ∧
      lopsidedRenamer.scoreCandidate loneContext (some intScope) "unseen" = .ok rb ∧
      rb.score < ra.score := by
  -- A share of observations lies between 0 and 1, and a scope without a type gives 0.
  have hvalues : ∀ name scope,
      (lopsidedPrior.namePrior.probability name scope : ℝ) ∈ Set.Icc 0 1 := by
    intro name scope
    show (lopsidedPrior.probability name scope : ℝ) ∈ Set.Icc 0 1
    rw [TypePrior.probability]
    cases scope.inferredType with
    | some type => exact wellFormed_lopsidedPrior.probability_mem_Icc _ _
    | none => simp [Arithmetic.ofNat_real]
  refine ⟨by decide, ⟨_, rfl, hvalues, ?_, probability_unseen⟩, by decide, by decide, ?_, -1, _, _,
    logLikelihood_lopsidedRenamer _, logLikelihood_lopsidedRenamer _,
    scoreCandidate_lopsidedRenamer _, scoreCandidate_lopsidedRenamer _, ?_⟩
  · rw [probability_rare]
    positivity
  · -- One observation in 128 costs 7 bits, one more than the penalty of a name never seen.
    rw [priorCost_rare, priorCost_unseen]
    norm_num
  · rw [priorCost_rare, priorCost_unseen, Arithmetic.ofNat_real]
    norm_num

/-- **A name that a prior has seen is not put behind one that it has not,** if its price is not
above the penalty. Take a renamer with one prior, in floats or in exact arithmetic, and two names,
of which the prior gives a probability to `a` and none to `b`, which the model knows. Then `a` costs
no more than `b` just if the bits of its probability are no more than the penalty. In that case it
has no higher score on any contexts that both names are as likely in. -/
theorem seen_not_behind_unseen {α : Type} [Arithmetic α] [OrderedArithmetic α] (renamer : Renamer α)
    {prior : NamePrior α} (hpriors : renamer.priors = [prior]) {a b : String} {scope : Scope}
    (hknown : renamer.model.isUnknown b = false)
    (hseen : Arithmetic.ofNat 0 < prior.probability a scope)
    (hunseen : ¬ Arithmetic.ofNat 0 < prior.probability b scope) :
    (renamer.priorCost a scope ≤ renamer.priorCost b scope ↔
      -Arithmetic.log2 (prior.probability a scope)
        ≤ Arithmetic.ofFloat renamer.config.priorPenalty) ∧
    (-Arithmetic.log2 (prior.probability a scope)
        ≤ Arithmetic.ofFloat renamer.config.priorPenalty →
      ∀ contexts bits, renamer.logLikelihood contexts a = .ok bits →
        renamer.logLikelihood contexts b = .ok bits →
          ∃ ra rb, renamer.scoreCandidate contexts (some scope) a = .ok ra ∧
            renamer.scoreCandidate contexts (some scope) b = .ok rb ∧ ¬ rb.score < ra.score) := by
  have hiff : renamer.priorCost a scope ≤ renamer.priorCost b scope ↔
      -Arithmetic.log2 (prior.probability a scope)
        ≤ Arithmetic.ofFloat renamer.config.priorPenalty := by
    rw [priorCost_of_priors_eq_singleton hpriors, priorCost_of_priors_eq_singleton hpriors,
      priceUnder_of_seen hseen, priceUnder_of_unseen hunseen hknown]
  exact ⟨hiff, fun hprice _ _ ha hb => exists_scoreCandidate_of_priorCost_le (hiff.2 hprice) ha hb⟩

/-- The name that is not rare costs less than the penalty, and is not behind the one that was never
seen. -/
theorem seen_not_behind_unseen_common :
    lopsidedRenamer.priors = [lopsidedPrior.namePrior] ∧
      lopsidedRenamer.model.isUnknown "unseen" = false ∧
      (0 : ℝ) < lopsidedPrior.namePrior.probability "common" intScope ∧
      ¬ (0 : ℝ) < lopsidedPrior.namePrior.probability "unseen" intScope ∧
      lopsidedRenamer.priorCost "common" intScope ≤ lopsidedRenamer.priorCost "unseen" intScope ∧
      ∃ ra rb, lopsidedRenamer.scoreCandidate loneContext (some intScope) "common" = .ok ra ∧
        lopsidedRenamer.scoreCandidate loneContext (some intScope) "unseen" = .ok rb ∧
        ¬ rb.score < ra.score := by
  have hcommon : (lopsidedPrior.namePrior.probability "common" intScope : ℝ) = 127 / 128 := by
    have hcount : lopsidedPrior.byType.count "common" "int" = 127 := by decide
    rw [probability_lopsidedPrior, hcount]
    norm_num
  have hseen : (0 : ℝ) < lopsidedPrior.namePrior.probability "common" intScope := by
    rw [hcommon]
    norm_num
  have hunseen : ¬ (0 : ℝ) < lopsidedPrior.namePrior.probability "unseen" intScope := by
    rw [probability_unseen]
    exact lt_irrefl 0
  -- 127 of 128 cost less than a bit, well below the penalty.
  have hprice : -Arithmetic.log2 (lopsidedPrior.namePrior.probability "common" intScope : ℝ)
      ≤ Arithmetic.ofFloat lopsidedRenamer.config.priorPenalty := by
    have hpenalty : (Arithmetic.ofFloat lopsidedRenamer.config.priorPenalty : ℝ) = 6 := ofFloat_six
    rw [neg_log2_le_iff hseen, hcommon, hpenalty, Real.rpow_neg two_pos.le]
    norm_num
  have hzero : (Arithmetic.ofNat 0 : ℝ) = 0 := Nat.cast_zero
  obtain ⟨hiff, hscores⟩ := seen_not_behind_unseen lopsidedRenamer rfl
    (a := "common") (b := "unseen") (by decide) (by rwa [hzero]) (by rwa [hzero])
  exact ⟨rfl, by decide, hseen, hunseen, hiff.2 hprice,
    hscores hprice _ _ (logLikelihood_lopsidedRenamer _) (logLikelihood_lopsidedRenamer _)⟩

end Renamer

end NaturalNames
