import NaturalNames.Proofs.Backoff.Blob
import NaturalNames.Proofs.Backoff.Probability

/-!
# `NaturalNames.Proofs.Backoff.Invariants`: which models there are

A model is had from a configuration, trained or not, or it is read from bytes.

* `Obtained.valid`: from a configuration it has the invariants that are documented of models. The
  configuration was validated, and all else was counted.
* `Valid.probabilityWords_mem_Ioc`: the invariants are all that the bounds on probabilities ask for,
  wherever a valid model comes from, as long as the two counts that are divided are words of 64
  bits. A count gets one on top, so a model from bytes may have counts that are too great for that.
* `exists_ofBytes_iff`: bytes give every model of numbers and texts that their widths hold.
  Nothing is validated there, so bytes that no valid model was written to may break every
  invariant at once (`ofBytes_invalid`).
-/

set_option autoImplicit false

namespace NaturalNames.BackoffModel

open Training

/-- The invariants that are documented of models. -/
structure Valid (model : BackoffModel) : Prop where
  order_pos : 0 < model.order
  factor_mem : 0 < model.factor ∧ model.factor < 1
  vocabulary : model.vocabulary.Consistent
  counts : model.counts.Falling

variable {config : ModelConfig} {model : BackoffModel}

/-! ### Models from a configuration -/

/-- A model from a configuration has a vocabulary whose two sides say the same. -/
theorem Obtained.consistent_vocabulary (h : Obtained config model) :
    model.vocabulary.Consistent := by
  cases h with
  | trained h =>
    obtain ⟨-, rfl⟩ := eq_inOneGo_of_train h
    exact Vocabulary.consistent_build _ _
  | untrained h =>
    obtain ⟨-, rfl⟩ := eq_of_untrained h
    exact Vocabulary.consistent_ofTokens (List.nodup_singleton _)

/-- Models from a configuration are valid, whatever the corpus was. -/
theorem Obtained.valid (h : Obtained config model) : model.Valid where
  order_pos := h.wellFormed.order_pos
  factor_mem := h.wellFormed.factor_mem
  vocabulary := h.consistent_vocabulary
  counts := h.wellFormed.counts.falling

/-! ### Probabilities in words -/

/-- The probability where the counts that are divided are words of 64 bits. -/
def probabilityWords {α : Type} [Arithmetic α] (model : BackoffModel) (ngram : NGram) : α :=
  (model.estimateOf ngram).wrap.value (Arithmetic.ofFloat model.factor)

/-- What is divided by is never more than all windows and all tokens together. -/
theorem denominator_estimate_le (h : model.counts.Falling) (hsize : 0 < model.vocabulary.size)
    (ids : List TokenId) :
    (model.estimate ids).denominator ≤ model.counts.total + model.vocabulary.size := by
  fun_induction estimate model ids with
  | case1 => exact Nat.le_trans hsize (Nat.le_add_left _ _)
  | case2 id => exact Nat.le_refl _
  | case3 id next rest ids n hpos =>
    exact Nat.le_trans (CountTrie.count_le_total h _) (Nat.le_add_right _ _)
  | case4 id next rest ids n hzero shorter ih => exact ih

/-- In words a valid model has the probabilities that it has with counts of any size. -/
theorem Valid.probabilityWords_eq (h : model.Valid)
    (hfits : model.counts.total + model.vocabulary.size < 2 ^ 64) {α : Type} [Arithmetic α]
    (ngram : NGram) : (model.probabilityWords ngram : α) = model.probability ngram := by
  have hle : (model.estimateOf ngram).denominator
      ≤ model.counts.total + model.vocabulary.size :=
    denominator_estimate_le h.counts h.vocabulary.size_pos _
  have hshare : (model.estimateOf ngram).IsShare :=
    isShare_estimate h.counts h.vocabulary.size_pos _
  rw [probabilityWords, hshare.wrap_eq_self (Nat.lt_of_le_of_lt hle hfits), probability]

/-- Where the words do not come round, the probability of a valid model is above zero and at most
one. -/
theorem Valid.probabilityWords_mem_Ioc (h : model.Valid)
    (hfits : model.counts.total + model.vocabulary.size < 2 ^ 64) (ngram : NGram) :
    (model.probabilityWords ngram : ℝ) ∈ Set.Ioc 0 1 := by
  rw [h.probabilityWords_eq hfits]
  exact (isShare_estimate h.counts h.vocabulary.size_pos _).value_mem_Ioc
    (exact_factor_mem h.factor_mem)

/-! ### Models from bytes -/

/-- The bytes of a model that fits are read as the model, whatever is behind them. -/
theorem ofBytes_toBytes (h : model.Representable) (extra : List UInt8) :
    ofBytes (model.toBytes ++ extra) = .ok model :=
  (isBlob_bytesOf h (.refl _) (.refl _)).ofBytes_append extra

/-- Reading asks for no more than that numbers and texts fit. -/
theorem exists_ofBytes_iff : (∃ bytes, ofBytes bytes = .ok model) ↔ model.Representable := by
  constructor
  · rintro ⟨bytes, hbytes⟩
    exact representable_of_ofBytes hbytes
  · intro h
    exact ⟨model.toBytes ++ [], ofBytes_toBytes h []⟩

/-- **Models are valid if they come from a configuration.** From there they are, whatever the corpus
was, and so are the models that are read from their bytes: in any listing of the maps, with anything
behind them. Of a valid model every probability is above zero and at most one, if all windows and
all tokens together are fewer than `2 ^ 64`, so that no count leaves its word when one is added to
it.

Models from bytes of another origin are not: the models that can be read are exactly those whose
numbers and texts fit, valid or not. -/
theorem validity_of_models (model : BackoffModel) :
    (∀ config, Obtained config model → model.Valid) ∧
    (model.Valid → model.counts.total + model.vocabulary.size < 2 ^ 64 →
      ∀ ngram, (model.probabilityWords ngram : ℝ) ∈ Set.Ioc 0 1) ∧
    ((∃ bytes, ofBytes bytes = .ok model) ↔ model.Representable) ∧
    (model.Valid → model.Representable →
      ∀ ids : List (String × TokenId), ids.Perm model.vocabulary.ids.entries →
      ∀ counts : CountTrie, CountTrie.Listing model.counts counts → ∀ extra, ∃ read,
        ofBytes (bytesOf model.order model.factor ids model.vocabulary.tokens counts ++ extra)
          = .ok read ∧ read.Valid) := by
  refine ⟨fun config h => h.valid, fun h hfits => h.probabilityWords_mem_Ioc hfits,
    exists_ofBytes_iff, ?_⟩
  intro hvalid hfits ids hids counts hcounts extra
  -- What is read is what was written.
  exact ⟨model, (isBlob_bytesOf hfits hids hcounts).ofBytes_append extra, hvalid⟩

/-- The model of the letters is valid, and it is again when its bytes are read. -/
theorem validity_of_models_pair :
    ∃ model : BackoffModel, Obtained pairConfig model ∧ model.Valid ∧
      model.counts.total + model.vocabulary.size < 2 ^ 64 ∧
      (model.probabilityWords (.single "b") : ℝ) ∈ Set.Ioc 0 1 ∧
      ∃ read, ofBytes (model.toBytes ++ [7]) = .ok read ∧ read.Valid := by
  let model := (inOneGo letters pairConfig pairUnits).model
  have hobtained : Obtained pairConfig model :=
    .trained (train_eq_inOneGo (.inTurn 4) letters (by decide) (by decide))
  obtain ⟨hvalid, hbounds, -, hread⟩ := validity_of_models model
  have hmodel := hvalid _ hobtained
  have hwords : model.counts.total + model.vocabulary.size < 2 ^ 64 := by decide +kernel
  have hfits : model.Representable := hobtained.wellFormed.representable (by decide)
    (by decide +kernel) (by decide +kernel) (by decide +kernel)
  exact ⟨model, hobtained, hmodel, hwords, hbounds hmodel hwords _,
    hread hmodel hfits _ (.refl _) _ (.refl _) [7]⟩

/-- A model of order zero, with a factor of two, without the unknown symbol, with an id that
stands for no token and with a node that counts less than its child. It is read, and finds a token
four times as likely as can be. -/
theorem ofBytes_invalid :
    ∃ model : BackoffModel,
      ofBytes [0, 0, 0, 0, 0, 0, 0, 0, 64, 1, 1, 97, 3, 1, 1, 98, 1, 1, 3, 7, 0] = .ok model ∧
      model.order = 0 ∧ ¬ model.factor < 1 ∧ model.vocabulary.ids.get? unknownSymbol = none ∧
      model.vocabulary.ids.get? "a" = some 3 ∧ model.vocabulary.token? 3 = none ∧
      ¬ model.counts.Falling ∧ (model.probability (.single "a") : ℝ) = 4 := by
  let leaf : CountTrie := .node 7 []
  let model : BackoffModel := ⟨0, 2, ⟨.ofList [("a", 3)], ["b"]⟩, .node 1 [(3, leaf)]⟩
  -- The model breaks its invariants and still fits, which is all that reading asks for.
  have hleaf : leaf.Representable := .node (by decide) .nil (by simp) (by simp)
  have hfits : model.Representable := {
    order_lt := by decide
    ids_length_lt := by decide +kernel
    ids_lt := by decide +kernel
    tokens_length_lt := by decide
    tokens_lt := by decide +kernel
    counts := .node (by decide) (List.pairwise_singleton ..) (by simp) (by simpa using hleaf) }
  have hbytes : model.toBytes ++ []
      = [0, 0, 0, 0, 0, 0, 0, 0, 64, 1, 1, 97, 3, 1, 1, 98, 1, 1, 3, 7, 0] := by
    decide +kernel
  have hfalling : ¬ model.counts.Falling := by
    rintro ⟨hatMost, -⟩
    exact absurd (hatMost (3, leaf) (List.mem_singleton_self _)) (by decide)
  have hestimate : model.estimateOf (.single "a") = ⟨0, 8, 2⟩ := by decide +kernel
  have hprobability : (model.probability (.single "a") : ℝ) = 4 := by
    rw [BackoffModel.probability_real, hestimate]
    norm_num
  exact ⟨model, hbytes ▸ ofBytes_toBytes hfits [], rfl, by decide +kernel, by decide +kernel,
    by decide +kernel, rfl, hfalling, hprobability⟩

end NaturalNames.BackoffModel
