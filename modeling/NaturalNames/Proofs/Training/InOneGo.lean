import Mathlib.Data.List.Basic
import NaturalNames.Backoff.Training
import NaturalNames.Proofs.CountTrie.Count
import NaturalNames.Proofs.Machine
import NaturalNames.Proofs.Ordered.Tally

/-!
# `NaturalNames.Proofs.Training.InOneGo`: training without chunks

Training reads and counts in chunks, twice, on a machine that may finish them in any order.
`inOneGo` is the training that a reader has in mind: read all units, build the vocabulary, count
all windows, forget the rare ones. `train_eq_inOneGo` says that every machine and every chunk
factor give its outcome, so no later theorem has to speak of chunks.

It rests on two homomorphisms. Reading adds up by `Tally.merge_ofKeys`, counting by
`countChunk_append`, and for the latter a trie has to be determined by its counts: merging the
tries of two chunks does not build the nodes in the order in which one pass over both does.
-/

set_option autoImplicit false

namespace NaturalNames

/-- The configurations that pass validation. -/
theorem ModelConfig.validate_eq_ok_iff {config : ModelConfig} :
    config.validate = .ok () ↔ 0 < config.order ∧
      (0 < config.backoffFactor ∧ config.backoffFactor < 1) ∧ 0 < config.chunkFactor := by
  rw [validate, Nat.pos_iff_ne_zero, Nat.pos_iff_ne_zero]
  split
  next horder => simp [horder]
  next horder =>
    split
    next hfactor => simp [hfactor]
    next hfactor =>
      split
      next hchunk => simp [hchunk]
      next hchunk => exact ⟨fun _ => ⟨horder, not_not.1 hfactor, hchunk⟩, fun _ => rfl⟩

namespace Training

/-- Training with the whole corpus as one chunk. -/
def inOneGo (tokenizer : Tokenizer) (config : ModelConfig) (units : List CorpusUnit) :
    TrainingOutcome :=
  let corpus := readChunk tokenizer units
  let vocabulary := Vocabulary.build corpus.counts config.vocabularyCutoff
  { model := {
      order := config.order
      factor := config.backoffFactor
      vocabulary := vocabulary
      counts := (countChunk config vocabulary corpus.units).cutoffRare config.ngramCutoff }
    skipped := corpus.skipped }

/-! ### The second pass -/

section CountChunk

variable (config : ModelConfig) (vocabulary : Vocabulary)

/-- The ids of a window. -/
def idsOf (window : List Word) : List TokenId := window.map fun word => vocabulary.idOf word.text

/-- A chunk of units is counted window by window. -/
theorem countChunk_eq_foldl (units : List (List Word)) :
    countChunk config vocabulary units
      = ((units.flatMap (countedWindows config)).map (idsOf vocabulary)).foldl
          (fun trie window => trie.add window) .empty := by
  rw [List.foldl_map]
  rfl

/-- A trie that was counted from a chunk is well-formed. -/
theorem wellFormed_countChunk (units : List (List Word)) :
    (countChunk config vocabulary units).WellFormed := by
  rw [countChunk_eq_foldl]
  exact CountTrie.WellFormed.foldl_add _ .empty

/-- A sequence of ids is counted once for every window that begins with it. -/
theorem count_countChunk (units : List (List Word)) (path : List TokenId) :
    (countChunk config vocabulary units).count path
      = (units.flatMap (countedWindows config)).countP
          fun window => path <+: idsOf vocabulary window := by
  rw [countChunk_eq_foldl, CountTrie.count_foldl_add _ .empty, CountTrie.count_empty,
    Nat.zero_add, List.countP_map]
  rfl

/-- Counting two lists of units apart and merging is counting them in one go. -/
theorem countChunk_append (front back : List (List Word)) :
    (countChunk config vocabulary front).merge (countChunk config vocabulary back)
      = countChunk config vocabulary (front ++ back) := by
  have hfront := wellFormed_countChunk config vocabulary front
  have hback := wellFormed_countChunk config vocabulary back
  -- Both sides are well-formed, so their counts decide; and the counts are numbers of windows.
  refine CountTrie.eq_of_count (hfront.merge hback) (wellFormed_countChunk ..) ?_
  intro path
  rw [CountTrie.count_merge hfront hback, count_countChunk, count_countChunk, count_countChunk,
    List.flatMap_append, List.countP_append]

/-- The order of the units does not matter. -/
theorem countChunk_perm {units units' : List (List Word)} (h : units.Perm units') :
    countChunk config vocabulary units = countChunk config vocabulary units' := by
  refine CountTrie.eq_of_count (wellFormed_countChunk ..) (wellFormed_countChunk ..) ?_
  intro path
  rw [count_countChunk, count_countChunk]
  exact (h.flatMap_right _).countP_eq _

/-- Counting in chunks and merging is counting in one go. -/
theorem foldl_merge_countChunk (machine : Machine) (factor : Nat) (units : List (List Word)) :
    (machine.mapChunks factor (countChunk config vocabulary) units).foldl CountTrie.merge .empty
      = countChunk config vocabulary units :=
  Machine.foldl_mapChunks machine factor _ CountTrie.merge (countChunk config vocabulary)
    (countChunk_append config vocabulary) units

end CountChunk

/-! ### The first pass -/

section ReadChunk

variable (tokenizer : Tokenizer)

/-- What `wordsOf` gives for a unit that is skipped. -/
def skippedOf? : Except SkippedUnit (List Word) → Option SkippedUnit
  | .error skipped => some skipped
  | .ok _ => none

/-- The units of a chunk are those that have words. -/
theorem units_readChunk (units : List CorpusUnit) :
    (readChunk tokenizer units).units
      = units.filterMap fun unit => (wordsOf tokenizer unit).toOption := by
  show (units.map _).filterMap _ = _
  rw [List.filterMap_map]
  rfl

/-- The units that are skipped are those that have none. -/
theorem skipped_readChunk (units : List CorpusUnit) :
    (readChunk tokenizer units).skipped
      = units.filterMap fun unit => skippedOf? (wordsOf tokenizer unit) := by
  show (units.map _).filterMap _ = _
  rw [List.filterMap_map]
  rfl

/-- The counts of a chunk are those of all its words. -/
theorem counts_readChunk (units : List CorpusUnit) :
    (readChunk tokenizer units).counts
      = .ofKeys ((readChunk tokenizer units).units.flatten.map Word.text) := rfl

/-- The counts of two chunks add up to those of both together. -/
theorem counts_readChunk_append (front back : List CorpusUnit) :
    Tally.merge (readChunk tokenizer front).counts (readChunk tokenizer back).counts
      = (readChunk tokenizer (front ++ back)).counts := by
  rw [counts_readChunk, counts_readChunk, counts_readChunk, Tally.merge_ofKeys, ← List.map_append,
    ← List.flatten_append, units_readChunk, units_readChunk, units_readChunk,
    ← List.filterMap_append]

variable (machine : Machine) (factor : Nat) (units : List CorpusUnit)

/-- Counting words in chunks and adding up is counting them in one go. -/
theorem foldl_merge_counts :
    (machine.mapChunks factor (readChunk tokenizer) units).foldl
        (fun sum chunk => Tally.merge sum chunk.counts) .empty
      = (readChunk tokenizer units).counts :=
  Machine.foldl_mapChunks machine factor _ (fun sum (chunk : Chunk) => Tally.merge sum chunk.counts)
    (fun units => (readChunk tokenizer units).counts) (counts_readChunk_append tokenizer) units

/-- The units of the chunks, one behind the other, are those of the corpus. -/
theorem flatMap_units :
    (machine.mapChunks factor (readChunk tokenizer) units).flatMap Chunk.units
      = (readChunk tokenizer units).units := by
  -- Units that fail leave nothing, so the words of a list are the words of its units in a row.
  rw [units_readChunk, List.filterMap_eq_flatMap_toList]
  refine Machine.flatMap_mapChunks machine factor _ _ _ (fun chunk => ?_) units
  rw [units_readChunk, List.filterMap_eq_flatMap_toList]

/-- The units that the chunks skip, one after the other, are those that the corpus does. -/
theorem flatMap_skipped :
    (machine.mapChunks factor (readChunk tokenizer) units).flatMap Chunk.skipped
      = (readChunk tokenizer units).skipped := by
  rw [skipped_readChunk, List.filterMap_eq_flatMap_toList]
  refine Machine.flatMap_mapChunks machine factor _ _ _ (fun chunk => ?_) units
  rw [skipped_readChunk, List.filterMap_eq_flatMap_toList]

end ReadChunk

/-! ### Both passes -/

/-- Every machine trains as if the corpus were one chunk. -/
theorem train_eq_inOneGo (machine : Machine) (tokenizer : Tokenizer) {config : ModelConfig}
    (hconfig : config.validate = .ok ()) {units : List CorpusUnit} (hunits : units ≠ []) :
    BackoffModel.train machine tokenizer config units = .ok (inOneGo tokenizer config units) := by
  -- The guards of training are passed, and what is left are its two passes over the chunks.
  have hempty : units.isEmpty = false := by
    rw [List.isEmpty_eq_false_iff]
    exact hunits
  simp only [BackoffModel.train, hconfig, hempty, BackoffModel.ofChunks, foldl_merge_counts,
    flatMap_units, flatMap_skipped, foldl_merge_countChunk]
  rfl

/-- What training returns, if it returns. -/
theorem eq_inOneGo_of_train {machine : Machine} {tokenizer : Tokenizer} {config : ModelConfig}
    {units : List CorpusUnit} {outcome : TrainingOutcome}
    (h : BackoffModel.train machine tokenizer config units = .ok outcome) :
    config.validate = .ok () ∧ outcome = inOneGo tokenizer config units := by
  -- Training that returns has passed its two guards, in the order in which they stand.
  have hconfig : config.validate = .ok () := by
    cases hvalidate : config.validate with
    | ok u => rfl
    | error e =>
      rw [BackoffModel.train, hvalidate] at h
      cases h
  have hunits : units ≠ [] := by
    intro hnil
    rw [BackoffModel.train, hconfig, hnil] at h
    cases h
  rw [train_eq_inOneGo machine tokenizer hconfig hunits] at h
  exact ⟨hconfig, (Except.ok.inj h).symm⟩

end Training

end NaturalNames
