import NaturalNames.Proofs.Training.PrefixCount

/-!
# `NaturalNames.Proofs.Training.Schedule`: training depends on the corpus alone

How the units are listed, cut into chunks and given to processors, and in which order the chunks
come back, has no influence on the model. Units without tokens have none either: they are reported
and otherwise as if they were not there.

The model is a function of the words that were read, up to their order (`model_inOneGo_congr`).
`train_schedule` reads off from it what reordering, leaving out and failing do.
-/

set_option autoImplicit false

namespace NaturalNames.Training

/-- The text of a unit cannot be cut into tokens. -/
def Fails (tokenizer : Tokenizer) (unit : CorpusUnit) : Prop :=
  ∃ e, tokenizer.tokenize unit.source = .error e

/-- The units that fail, with the reason of each, in the order of the corpus. -/
def failures (tokenizer : Tokenizer) (units : List CorpusUnit) : List SkippedUnit :=
  units.filterMap fun unit =>
    match tokenizer.tokenize unit.source with
    | .ok _ => none
    | .error e => some ⟨unit.name, e.message⟩

/-- The second list is the first one without some of the units that fail. -/
inductive DropsFailing (tokenizer : Tokenizer) : List CorpusUnit → List CorpusUnit → Prop
  | nil : DropsFailing tokenizer [] []
  | keep {units units' : List CorpusUnit} (unit : CorpusUnit)
      (rest : DropsFailing tokenizer units units') :
      DropsFailing tokenizer (unit :: units) (unit :: units')
  | drop {units units' : List CorpusUnit} {unit : CorpusUnit} (fails : Fails tokenizer unit)
      (rest : DropsFailing tokenizer units units') :
      DropsFailing tokenizer (unit :: units) units'

/-- Dropping units leaves the others in their order. -/
theorem DropsFailing.sublist {tokenizer : Tokenizer} {units units' : List CorpusUnit}
    (h : DropsFailing tokenizer units units') : units'.Sublist units := by
  induction h with
  | nil => exact .slnil
  | keep unit _ ih => exact ih.cons_cons unit
  | drop _ _ ih => exact ih.cons _

/-- Where the ends of windows fit, they fit in a corpus with none but these units. -/
theorem EndsFit.of_subset {tokenizer : Tokenizer} {config : ModelConfig}
    {units units' : List CorpusUnit} (h : EndsFit tokenizer config units)
    (hunits : units' ⊆ units) :
    EndsFit tokenizer config units' := by
  intro tokens htokens
  obtain ⟨unit, hunit, hread⟩ := List.mem_filterMap.1 htokens
  exact h tokens (List.mem_filterMap.2 ⟨unit, hunits hunit, hread⟩)

/-- A configuration is as valid with another chunk factor, if that is not zero. -/
theorem validate_chunkFactor {config : ModelConfig} (h : config.validate = .ok ()) {factor : Nat}
    (hfactor : 1 ≤ factor) : { config with chunkFactor := factor }.validate = .ok () := by
  rw [ModelConfig.validate_eq_ok_iff] at h ⊢
  exact ⟨h.1, h.2.1, hfactor⟩

section

variable (tokenizer : Tokenizer)

/-- A unit that fails has no words. -/
theorem toOption_wordsOf_of_fails {unit : CorpusUnit} (h : Fails tokenizer unit) :
    (wordsOf tokenizer unit).toOption = none := by
  obtain ⟨e, he⟩ := h
  rw [wordsOf, he]
  rfl

/-- Training reports the units that fail. -/
theorem skipped_readChunk_eq_failures (units : List CorpusUnit) :
    (readChunk tokenizer units).skipped = failures tokenizer units := by
  rw [skipped_readChunk, failures]
  congr 1
  funext unit
  rw [wordsOf]
  cases tokenizer.tokenize unit.source <;> rfl

/-- Without some of the failing units the same is read. -/
theorem units_readChunk_of_dropsFailing {units units' : List CorpusUnit}
    (h : DropsFailing tokenizer units units') :
    (readChunk tokenizer units').units = (readChunk tokenizer units).units := by
  rw [units_readChunk, units_readChunk]
  -- A unit that fails leaves no words, so it makes no difference where it is dropped.
  induction h with
  | nil => rfl
  | keep unit rest ih => rw [List.filterMap_cons, List.filterMap_cons, ih]
  | drop fails rest ih =>
    rw [ih, List.filterMap_cons, toOption_wordsOf_of_fails tokenizer fails]

/-- From units that all fail nothing is read. -/
theorem units_readChunk_of_forall_fails {units : List CorpusUnit}
    (h : ∀ unit ∈ units, Fails tokenizer unit) : (readChunk tokenizer units).units = [] := by
  rw [units_readChunk, List.filterMap_eq_nil_iff]
  exact fun unit hunit => toOption_wordsOf_of_fails tokenizer (h unit hunit)

variable (config : ModelConfig)

/-- Corpora with the same words, in whatever order, give the same model. -/
theorem model_inOneGo_congr {units units' : List CorpusUnit}
    (h : (readChunk tokenizer units').units.Perm (readChunk tokenizer units).units) :
    (inOneGo tokenizer config units').model = (inOneGo tokenizer config units).model := by
  have hcounts : (readChunk tokenizer units').counts = (readChunk tokenizer units).counts := by
    rw [counts_readChunk, counts_readChunk]
    exact Tally.ofKeys_perm (h.flatten.map _)
  simp only [inOneGo, hcounts, countChunk_perm config _ h]

/-- Without words there is nothing to learn. -/
theorem untrained_eq_inOneGo (hconfig : config.validate = .ok ()) {units : List CorpusUnit}
    (h : (readChunk tokenizer units).units = []) :
    BackoffModel.untrained config = .ok (inOneGo tokenizer config units).model := by
  have hcounts : (readChunk tokenizer units).counts = .ofKeys [] := by
    rw [counts_readChunk, h]
    rfl
  -- Nothing was counted, so no token is known, and forgetting leaves nothing as it is.
  have hcutoff : CountTrie.empty.cutoffRare config.ngramCutoff = .empty := by
    rw [CountTrie.empty, CountTrie.cutoffRare]
    exact ite_self _
  rw [BackoffModel.untrained, hconfig]
  simp only [inOneGo, hcounts, h]
  show Except.ok _
    = Except.ok (BackoffModel.mk _ _ _ (CountTrie.empty.cutoffRare config.ngramCutoff))
  rw [hcutoff]
  rfl

end

/-- **Training depends on the corpus alone.** Take a valid configuration and a corpus with units,
where the order and the tokens of the longest unit come to no more than `2 ^ 64`. There is one
outcome, with which training completes on every machine with every chunk factor. It reports exactly
the units that fail, in the order of the corpus. The same model comes of the units in any other
order, and of the corpus without any of the failing units as long as a unit is left; and if all
units fail, it is the untrained model. -/
theorem train_schedule (tokenizer : Tokenizer) (config : ModelConfig)
    (hconfig : config.validate = .ok ()) (units : List CorpusUnit) (hunits : units ≠ [])
    (hfits : EndsFit tokenizer config units) :
    ∃ outcome : TrainingOutcome,
      (∀ (machine : Machine) (factor : Nat), 1 ≤ factor →
        Completes machine tokenizer { config with chunkFactor := factor } units outcome) ∧
      outcome.skipped = failures tokenizer units ∧
      (∀ units' : List CorpusUnit, units'.Perm units →
        ∀ (machine : Machine) (factor : Nat), 1 ≤ factor →
          ∃ outcome', Completes machine tokenizer
              { config with chunkFactor := factor } units' outcome' ∧
            outcome'.model = outcome.model) ∧
      (∀ units' : List CorpusUnit, DropsFailing tokenizer units units' → units' ≠ [] →
        ∀ (machine : Machine) (factor : Nat), 1 ≤ factor →
          ∃ outcome', Completes machine tokenizer
              { config with chunkFactor := factor } units' outcome' ∧
            outcome'.model = outcome.model) ∧
      ((∀ unit ∈ units, Fails tokenizer unit) →
        BackoffModel.untrained config = .ok outcome.model) := by
  -- Training completes on every corpus of these units, so only the outcomes have to be compared.
  have htrain : ∀ units' : List CorpusUnit, units' ⊆ units → units' ≠ [] →
      ∀ (machine : Machine) (factor : Nat), 1 ≤ factor →
        Completes machine tokenizer { config with chunkFactor := factor } units'
          (inOneGo tokenizer config units') := fun units' hsubset hunits' machine factor hfactor =>
    completes_inOneGo machine (validate_chunkFactor hconfig hfactor) hunits'
      (hfits.of_subset hsubset)
  refine ⟨inOneGo tokenizer config units, htrain units (List.Subset.refl _) hunits,
    skipped_readChunk_eq_failures tokenizer units, ?_, ?_, ?_⟩
  · intro units' hperm machine factor hfactor
    have hunits' : units' ≠ [] := fun hnil => hunits (List.nil_perm.1 (hnil ▸ hperm))
    refine ⟨_, htrain units' hperm.subset hunits' machine factor hfactor,
      model_inOneGo_congr _ _ ?_⟩
    rw [units_readChunk, units_readChunk]
    exact hperm.filterMap _
  · intro units' hdrops hunits' machine factor hfactor
    refine ⟨_, htrain units' hdrops.sublist.subset hunits' machine factor hfactor,
      model_inOneGo_congr _ _ ?_⟩
    rw [units_readChunk_of_dropsFailing tokenizer hdrops]
  · intro hfails
    exact untrained_eq_inOneGo tokenizer config hconfig
      (units_readChunk_of_forall_fails tokenizer hfails)

/-- The corpus of letters on twelve processors, backwards on one, and without its third unit. -/
theorem train_schedule_pair :
    pairConfig.validate = .ok () ∧ pairUnits ≠ [] ∧ EndsFit letters pairConfig pairUnits ∧
      ∃ outcome : TrainingOutcome,
        BackoffModel.train (.inTurn 12) letters { pairConfig with chunkFactor := 3 } pairUnits
          = .ok outcome ∧
        outcome.skipped = [⟨"third", "Tokenization error: question mark"⟩] ∧
        (∃ outcome', BackoffModel.train (.inTurn 1) letters { pairConfig with chunkFactor := 1 }
            pairUnits.reverse = .ok outcome' ∧ outcome'.model = outcome.model) ∧
        (∃ outcome', BackoffModel.train (.inTurn 2) letters { pairConfig with chunkFactor := 1 }
            (pairUnits.eraseIdx 2) = .ok outcome' ∧ outcome'.model = outcome.model) := by
  have hconfig : pairConfig.validate = .ok () := by decide
  have hunits : pairUnits ≠ [] := by decide
  have hfits : EndsFit letters pairConfig pairUnits := by decide
  obtain ⟨outcome, htrain, hskipped, hperm, hdrops, -⟩ :=
    train_schedule letters pairConfig hconfig pairUnits hunits hfits
  -- The third unit cannot be read. It is skipped, and leaving it out gives the same model.
  have hfails : Fails letters ⟨"third", "a=?"⟩ := ⟨_, rfl⟩
  refine ⟨hconfig, hunits, hfits, outcome, (htrain _ 3 (by decide)).train_eq, ?_, ?_, ?_⟩
  · rw [hskipped]
    decide
  · obtain ⟨outcome', hreversed, hmodel⟩ := hperm _ (List.reverse_perm _) (.inTurn 1) 1 (by decide)
    exact ⟨outcome', hreversed.train_eq, hmodel⟩
  · obtain ⟨outcome', hshort, hmodel⟩ := hdrops (pairUnits.eraseIdx 2)
      (.keep _ (.keep _ (.drop hfails (.keep _ .nil)))) (by decide) (.inTurn 2) 1 (by decide)
    exact ⟨outcome', hshort.train_eq, hmodel⟩

end NaturalNames.Training
