import NaturalNames.Proofs.CountTrie.Ids
import NaturalNames.Proofs.Training.InOneGo
import NaturalNames.Proofs.Vocabulary

/-!
# `NaturalNames.Proofs.Backoff.WellFormed`: what holds of every model from training

A model comes from training or is the untrained one (`Obtained`). Either way it looks at a token
at least, its factor lies between zero and one, its vocabulary has the unknown symbol, and its trie
is well-formed and holds ids of the vocabulary only. Probabilities ask for the order of the counts,
bytes for the bound of the ids.
-/

set_option autoImplicit false

namespace NaturalNames.BackoffModel

open Training

/-- The models that a configuration gives: one for every machine, tokenizer and corpus that
training succeeds with, and the one that has seen nothing. -/
inductive Obtained (config : ModelConfig) : BackoffModel → Prop
  | trained {machine : Machine} {tokenizer : Tokenizer} {units : List CorpusUnit}
      {outcome : TrainingOutcome} (h : train machine tokenizer config units = .ok outcome) :
      Obtained config outcome.model
  | untrained {model : BackoffModel} (h : BackoffModel.untrained config = .ok model) :
      Obtained config model

/-- A model whose probabilities make sense. -/
structure WellFormed (model : BackoffModel) : Prop where
  order_pos : 0 < model.order
  factor_mem : 0 < model.factor ∧ model.factor < 1
  counts : model.counts.WellFormed
  ids : CountTrie.IdsBelow model.vocabulary.size model.counts
  vocabulary_pos : 0 < model.vocabulary.size
  vocabulary_ids : ∀ e ∈ model.vocabulary.ids.entries,
    e.1 ∈ model.vocabulary.tokens ∧ e.2 < model.vocabulary.size

variable {config : ModelConfig} {model : BackoffModel}

/-- Counting with a vocabulary uses its ids. -/
theorem idsBelow_countChunk (config : ModelConfig) (known : List String)
    (units : List (List Word)) :
    CountTrie.IdsBelow (Vocabulary.ofTokens known).size
      (countChunk config (.ofTokens known) units) := by
  rw [countChunk_eq_foldl]
  refine CountTrie.IdsBelow.foldl_add ?_ .empty
  -- An id in a window was given by the vocabulary.
  intro window hwindow id hid
  obtain ⟨words, -, rfl⟩ := List.mem_map.1 hwindow
  obtain ⟨word, -, rfl⟩ := List.mem_map.1 hid
  exact Vocabulary.idOf_ofTokens_lt known word.text

/-- A model that is trained with a valid configuration is well-formed. -/
theorem wellFormed_inOneGo (hconfig : config.validate = .ok ()) (tokenizer : Tokenizer)
    (units : List CorpusUnit) : (inOneGo tokenizer config units).model.WellFormed := by
  rw [ModelConfig.validate_eq_ok_iff] at hconfig
  exact {
    order_pos := hconfig.1
    factor_mem := hconfig.2.1
    counts := (wellFormed_countChunk ..).cutoffRare _
    ids := (idsBelow_countChunk ..).cutoffRare _
    vocabulary_pos := Nat.succ_pos _
    vocabulary_ids := fun _ => Vocabulary.mem_ids_ofTokens }

/-- What the untrained model is. -/
theorem eq_of_untrained (h : BackoffModel.untrained config = .ok model) :
    config.validate = .ok () ∧
      model = ⟨config.order, config.backoffFactor, .unknownOnly, .empty⟩ := by
  rw [BackoffModel.untrained] at h
  cases hconfig : config.validate with
  | error e =>
    rw [hconfig] at h
    cases h
  | ok u =>
    rw [hconfig] at h
    exact ⟨rfl, (Except.ok.inj h).symm⟩

namespace Obtained

/-- A model has the order of its configuration. -/
theorem order_eq (h : Obtained config model) : model.order = config.order := by
  cases h with
  | trained h =>
    rw [(eq_inOneGo_of_train h).2]
    rfl
  | untrained h => rw [(eq_of_untrained h).2]

/-- A model has the factor of its configuration. -/
theorem factor_eq (h : Obtained config model) : model.factor = config.backoffFactor := by
  cases h with
  | trained h =>
    rw [(eq_inOneGo_of_train h).2]
    rfl
  | untrained h => rw [(eq_of_untrained h).2]

/-- A model from a configuration is well-formed. -/
theorem wellFormed (h : Obtained config model) : model.WellFormed := by
  cases h with
  | trained h =>
    obtain ⟨hconfig, rfl⟩ := eq_inOneGo_of_train h
    exact wellFormed_inOneGo hconfig _ _
  | untrained h =>
    obtain ⟨hconfig, rfl⟩ := eq_of_untrained h
    rw [ModelConfig.validate_eq_ok_iff] at hconfig
    exact {
      order_pos := hconfig.1
      factor_mem := hconfig.2.1
      counts := .empty
      ids := .empty
      vocabulary_pos := Nat.one_pos
      vocabulary_ids := fun _ => Vocabulary.mem_ids_ofTokens }

end Obtained

end NaturalNames.BackoffModel
