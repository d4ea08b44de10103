import Mathlib.Data.List.DropRight
import NaturalNames.Proofs.Backoff.Probability

/-!
# `NaturalNames.Proofs.Backoff.LongestSuffix`: where a model stops backing off

A model drops tokens from the front until what is left was counted. So what it stops at is the
longest suffix that was counted, or the last id alone (`LongestSeen`). There is one such suffix
(`LongestSeen.eq`), and the recursion finds it: dropping an id leaves the suffix as it is
(`LongestSeen.cons`) and costs one discount (`exists_longestSeen`).

All of this is about ids. Tokens that have no id of their own have the same one, and tokens in front
of the last `order` have none that is looked at (`estimateOf_eq_rtake`).
-/

set_option autoImplicit false

namespace NaturalNames.BackoffModel

open Training

/-! ### The longest suffix that was counted -/

/-- `seen` is the longest suffix of at least two ids that was counted, or the last id alone if there
is none. -/
structure LongestSeen (counts : CountTrie) (ids seen : List TokenId) : Prop where
  suffix : seen <:+ ids
  counted_or_last : 2 ≤ seen.length ∧ 0 < counts.count seen ∨ seen.length = 1
  longest : ∀ other, other <:+ ids → 2 ≤ other.length → 0 < counts.count other →
    other.length ≤ seen.length

namespace LongestSeen

variable {counts : CountTrie} {ids seen seen' : List TokenId}

/-- Only a sequence that is not empty has a longest suffix of this kind. -/
theorem ids_ne_nil (h : LongestSeen counts ids seen) : ids ≠ [] := by
  rintro rfl
  obtain rfl : seen = [] := List.suffix_nil.1 h.suffix
  rcases h.counted_or_last with ⟨hlength, -⟩ | hlast
  · exact absurd hlength (by decide)
  · exact absurd hlast (by decide)

/-- Of two longest suffixes neither is longer. -/
theorem length_le (h : LongestSeen counts ids seen) (h' : LongestSeen counts ids seen') :
    seen'.length ≤ seen.length := by
  rcases h'.counted_or_last with ⟨hlength, hcount⟩ | hlast
  · exact h.longest seen' h'.suffix hlength hcount
  · rcases h.counted_or_last with ⟨hlength, -⟩ | hlast' <;> omega

/-- There is one longest suffix, since suffixes of one length are the same. -/
theorem eq (h : LongestSeen counts ids seen) (h' : LongestSeen counts ids seen') :
    seen = seen' := by
  have hlength : seen.length = seen'.length := Nat.le_antisymm (h'.length_le h) (h.length_le h')
  have hsuffix : seen <:+ seen' := List.suffix_of_suffix_length_le h.suffix h'.suffix hlength.le
  exact hsuffix.eq_of_length hlength

/-- A single id is its own longest suffix, counted or not. -/
theorem singleton (counts : CountTrie) (id : TokenId) : LongestSeen counts [id] [id] where
  suffix := List.suffix_rfl
  counted_or_last := .inr rfl
  longest _ hother _ _ := hother.length_le

/-- A sequence that was counted is its own longest suffix. -/
theorem of_count_pos (hlength : 2 ≤ ids.length) (hcount : 0 < counts.count ids) :
    LongestSeen counts ids ids where
  suffix := List.suffix_rfl
  counted_or_last := .inl ⟨hlength, hcount⟩
  longest _ hother _ _ := hother.length_le

/-- Where all of the ids were not counted, the first one can be dropped. -/
theorem cons (h : LongestSeen counts ids seen) {id : TokenId}
    (hcount : counts.count (id :: ids) = 0) :
    LongestSeen counts (id :: ids) seen where
  suffix := h.suffix.trans (List.suffix_cons id ids)
  counted_or_last := h.counted_or_last
  longest other hother hlength hpos := by
    rcases List.suffix_cons_iff.1 hother with rfl | hother
    · exact absurd hcount (Nat.ne_of_gt hpos)
    · exact h.longest other hother hlength hpos

end LongestSeen

/-! ### Estimates -/

section

variable (model : BackoffModel)

/-- The estimate of a number of ids, of which `seen` were not dropped. -/
def estimateFrom (length : Nat) (seen : List TokenId) : Estimate where
  backoffs := length - seen.length
  numerator := if 2 ≤ seen.length then model.counts.count seen else model.counts.count seen + 1
  denominator :=
    if 2 ≤ seen.length then model.counts.count seen.dropLast
    else model.counts.total + model.vocabulary.size

/-- The estimate looks at ever shorter suffixes, and stops at the longest that was seen. -/
theorem exists_longestSeen {ids : List TokenId} (hids : ids ≠ []) :
    ∃ seen, LongestSeen model.counts ids seen ∧
      model.estimate ids = model.estimateFrom ids.length seen := by
  -- Along the ids that are dropped.
  fun_induction estimate model ids with
  | case1 => exact absurd rfl hids
  | case2 id => exact ⟨[id], .singleton _ id, rfl⟩
  | case3 id next rest ids n hpos =>
    refine ⟨ids, .of_count_pos (Nat.le_add_left 2 _) hpos, ?_⟩
    simp [estimateFrom, ids, n]
  | case4 id next rest ids n hzero shorter ih =>
    obtain ⟨seen, hseen, hshorter⟩ := ih (List.cons_ne_nil _ _)
    refine ⟨seen, hseen.cons (Nat.eq_zero_of_not_pos hzero), ?_⟩
    have hbackoffs : (id :: next :: rest).length - seen.length
        = (next :: rest).length - seen.length + 1 := Nat.succ_sub hseen.suffix.length_le
    rw [estimateFrom, hbackoffs]
    show { model.estimate (next :: rest) with
      backoffs := (model.estimate (next :: rest)).backoffs + 1 } = _
    rw [hshorter, estimateFrom]

/-- The estimate of a sequence is that from its longest suffix, with a discount for each id that is
left out. -/
theorem estimate_eq_of_longestSeen {ids seen : List TokenId}
    (hseen : LongestSeen model.counts ids seen) :
    model.estimate ids = model.estimateFrom ids.length seen := by
  obtain ⟨seen', hseen', hestimate⟩ := model.exists_longestSeen hseen.ids_ne_nil
  rw [hseen.eq hseen', hestimate]

/-- The model looks at the last tokens, as many as its order. -/
theorem estimateOf_eq_rtake (horder : 0 < model.order) (ngram : NGram) :
    model.estimateOf ngram = model.estimate (model.idsOf (ngram.tokens.rtake model.order)) := by
  have htokens : (ngram.suffix model.order).tokens = ngram.tokens.rtake model.order := by
    show ngram.tokens.drop (ngram.tokens.length - max 1 model.order) = _
    rw [Nat.max_eq_right horder, List.rtake]
  rw [estimateOf, htokens]

/-- Tokens with the same ids have the same probability, whatever it is computed in. -/
theorem probability_eq_of_idsOf_eq {α : Type} [Arithmetic α] (horder : 0 < model.order)
    {ngram ngram' : NGram}
    (h : model.idsOf (ngram.tokens.rtake model.order)
      = model.idsOf (ngram'.tokens.rtake model.order)) :
    (model.probability ngram : α) = model.probability ngram' := by
  rw [probability, probability, estimateOf_eq_rtake model horder, estimateOf_eq_rtake model horder,
    h]

/-- In real arithmetic the estimate is a power of the factor times a quotient of counts. -/
theorem value_estimateFrom (factor : ℝ) (length : Nat) (seen : List TokenId) :
    (model.estimateFrom length seen).value factor
      = factor ^ (length - seen.length) *
        if 2 ≤ seen.length then
          (model.counts.count seen : ℝ) / model.counts.count seen.dropLast
        else
          ((model.counts.count seen : ℝ) + 1) / (model.counts.total + model.vocabulary.size) := by
  rw [Estimate.value_real, estimateFrom]
  split
  next => rfl
  next => rw [Nat.cast_add, Nat.cast_add, Nat.cast_one]

end

/-! ### Unknown tokens -/

variable {model : BackoffModel}

/-- All unknown tokens have one id. -/
theorem idOf_eq_of_isUnknown {a b : String} (ha : model.isUnknown a = true)
    (hb : model.isUnknown b = true) : model.vocabulary.idOf a = model.vocabulary.idOf b :=
  (of_decide_eq_true ha).trans (of_decide_eq_true hb).symm

/-- Exchanging tokens that are not known leaves the ids as they are. -/
theorem idsOf_eq_of_forall₂ {tokens tokens' : List String}
    (h : List.Forall₂ (fun a b => a = b ∨ model.isUnknown a = true ∧ model.isUnknown b = true)
      tokens tokens') :
    model.idsOf tokens = model.idsOf tokens' := by
  induction h with
  | nil => rfl
  | cons htoken hrest ih =>
    refine congrArg₂ List.cons ?_ ih
    rcases htoken with rfl | ⟨ha, hb⟩
    · rfl
    · exact idOf_eq_of_isUnknown ha hb

/-! ### Models from training -/

/-- **The probability is that of the longest suffix that was seen.** A model from a configuration of
order `n` looks at the last `n` tokens of an n-gram, or at all of them if there are fewer. Among the
suffixes of their ids there is one longest that has two ids or more and was counted; if there is
none take the last id alone. In exact arithmetic the probability is the share of this suffix in the
count of the ids before its last one, or for a single id the share of one more than its count, with
one discount for each id in front of it.

Whatever it is computed in, the probability does not change with the tokens in front of the last
`n`, nor if tokens that the model does not know are exchanged for others that it does not know. -/
theorem probability_of_longestSeen {config : ModelConfig} (h : Obtained config model)
    (ngram : NGram) :
    let ids := model.idsOf (ngram.tokens.rtake config.order)
    ids.length = min ngram.length config.order ∧
    (∃! seen, LongestSeen model.counts ids seen) ∧
    (∀ seen, LongestSeen model.counts ids seen →
      (model.probability ngram : ℝ)
        = (Number.exact config.backoffFactor : ℝ) ^ (ids.length - seen.length) *
          if 2 ≤ seen.length then
            (model.counts.count seen : ℝ) / model.counts.count seen.dropLast
          else
            ((model.counts.count seen : ℝ) + 1) / (model.counts.total + model.vocabulary.size)) ∧
    ∀ ngram' : NGram,
      List.Forall₂ (fun a b => a = b ∨ model.isUnknown a = true ∧ model.isUnknown b = true)
        (ngram.tokens.rtake config.order) (ngram'.tokens.rtake config.order) →
      ∀ (α : Type) [Arithmetic α], (model.probability ngram : α) = model.probability ngram' := by
  intro ids
  have horder : 0 < model.order := h.wellFormed.order_pos
  have hlength : ids.length = min ngram.length config.order := by
    show (List.map _ _).length = _
    rw [List.length_map, List.rtake, List.length_drop]
    show ngram.length - (ngram.length - config.order) = _
    omega
  -- An n-gram is not empty and the order is positive, so there is a suffix to look at.
  have hids : ids ≠ [] := by
    rw [← h.order_eq] at hlength
    have hpos : 0 < ngram.length := List.length_pos_iff.2 ngram.nonempty
    exact List.length_pos_iff.1 (by omega)
  obtain ⟨seen, hseen, -⟩ := model.exists_longestSeen hids
  refine ⟨hlength, ⟨seen, hseen, fun other hother => hother.eq hseen⟩, ?_, ?_⟩
  · intro seen hseen
    rw [probability, estimateOf_eq_rtake model horder, h.order_eq,
      model.estimate_eq_of_longestSeen hseen, value_estimateFrom, Arithmetic.ofFloat_real,
      h.factor_eq]
  · intro ngram' hsame α _
    rw [← h.order_eq] at hsame
    exact model.probability_eq_of_idsOf_eq horder (idsOf_eq_of_forall₂ hsame)

/-- The model of the letters comes from its configuration. -/
theorem obtained_letters : Obtained pairConfig (inOneGo letters pairConfig pairUnits).model :=
  .trained (train_eq_inOneGo (.inTurn 4) letters (by decide) (by decide))

/-- The model of the letters looks at `q=`. It has not seen this pair and takes the share of `=`, at
the price of one token. With `z` in place of `q` that is the same. -/
theorem probability_of_longestSeen_pair :
    ∃ (model : BackoffModel) (ngram ngram' : NGram), Obtained pairConfig model ∧
      ngram.tokens = ["b", "q", "="] ∧ ngram'.tokens = ["z", "="] ∧
      model.idsOf ["q", "="] = [0, 1] ∧ LongestSeen model.counts [0, 1] [1] ∧
      (model.probability ngram : ℝ)
        = (Number.exact pairConfig.backoffFactor : ℝ) ^ 1 * (((1 : ℝ) + 1) / (5 + 3)) ∧
      (model.probability ngram : Float) = model.probability ngram' := by
  let model := (inOneGo letters pairConfig pairUnits).model
  have hmodel : Obtained pairConfig model := obtained_letters
  have hlooked : ["b", "q", "="].rtake pairConfig.order = ["q", "="] := rfl
  have hids : model.idsOf ["q", "="] = [0, 1] := by decide +kernel
  have hpair : model.counts.count [0, 1] = 0 := by decide +kernel
  have hlast : model.counts.count [1] = 1 := by decide +kernel
  have htotal : model.counts.total = 5 := by decide +kernel
  have hsize : model.vocabulary.size = 3 := by decide +kernel
  have hseen : LongestSeen model.counts [0, 1] [1] := (LongestSeen.singleton _ 1).cons hpair
  obtain ⟨-, -, hprobability, hexchanged⟩ :=
    probability_of_longestSeen hmodel ⟨["b", "q", "="], by decide⟩
  refine ⟨model, ⟨["b", "q", "="], by decide⟩, ⟨["z", "="], by decide⟩, hmodel, rfl, rfl, hids,
    hseen, ?_, ?_⟩
  · have hvalue := hprobability [1] (hids ▸ hseen)
    rw [hlast, htotal, hsize] at hvalue
    simpa [hlooked, hids] using hvalue
  · refine hexchanged _ ?_ Float
    exact .cons (.inr ⟨by decide +kernel, by decide +kernel⟩) (.cons (.inl rfl) .nil)

end NaturalNames.BackoffModel
