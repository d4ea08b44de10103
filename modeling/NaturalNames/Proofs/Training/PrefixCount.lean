import Mathlib.Algebra.GroupWithZero.Nat
import Mathlib.Data.List.Dedup
import NaturalNames.Proofs.Training.InOneGo
import NaturalNames.Proofs.Vocabulary

/-!
# `NaturalNames.Proofs.Training.PrefixCount`: training counts are exact

What training should count can be said of the corpus alone, without vocabulary and trie:

* A text is *known* if it stands in the corpus more often than the cutoff and is not the unknown
  symbol. `corpusId` numbers the known texts from one, in ascending order, and gives zero to all
  others.
* At every position of a unit a window of the next `order` tokens begins. It counts if it holds
  an identifier, or if windows without one count too.
* `prefixCount` is the number of units and positions whose window counts and begins, token by
  token, with the given ids.

`counts_train` says that the trained model holds exactly these numbers, less those that the n-gram
cutoff takes. It is put together from the count of one pass over the corpus
(`count_countChunk_eq_prefixCount`) and from what forgetting does to counts.

A configuration may ask for any order, and the end of a window is the order added to where the
window starts. On a machine with words of 64 bits that sum may come out below the start, and such a
window cannot be cut out of its unit (`windowAt?`). `Completes` says of a training that this does
not happen; for that the order and the longest unit together must not exceed `2 ^ 64` (`EndsFit`).
-/

set_option autoImplicit false

namespace NaturalNames.Training

/-! ### The corpus -/

section Corpus

variable (tokenizer : Tokenizer) (config : ModelConfig) (units : List CorpusUnit)

/-- The tokens of each unit that has some. -/
def tokenLists : List (List Token) :=
  units.filterMap fun unit => (tokenizer.tokenize unit.source).toOption

/-- The texts of all tokens of the corpus. -/
def texts : List String := (tokenLists tokenizer units).flatten.map Token.text

/-- Texts with an id of their own. -/
def IsKnown (text : String) : Prop :=
  config.vocabularyCutoff < (texts tokenizer units).count text ∧ text ≠ unknownSymbol

instance (text : String) : Decidable (IsKnown tokenizer config units text) :=
  inferInstanceAs (Decidable (_ ∧ _))

/-- The rank of a known text among the known texts, counted from one. -/
def corpusId (text : String) : TokenId :=
  if IsKnown tokenizer config units text then
    (texts tokenizer units).dedup.countP
      (fun other => IsKnown tokenizer config units other ∧ other < text) + 1
  else unknownId

/-- The window that begins at a position: the next `order` tokens, or as many as there are. -/
def windowAt {α : Type} (order : Nat) (tokens : List α) (start : Nat) : List α :=
  (tokens.drop start).take order

/-- The window that begins at a position, cut out between its start and its end. The end is a sum of
words of 64 bits; where that is in front of the start there is no window. -/
def windowAt? {α : Type} (order : Nat) (tokens : List α) (start : Nat) : Option (List α) :=
  let stop := min ((start + order) % 2 ^ 64) tokens.length
  if start ≤ stop then some ((tokens.take stop).drop start) else none

/-- The end of every window is a word of 64 bits. -/
def EndsFit : Prop :=
  ∀ tokens ∈ tokenLists tokenizer units, config.order + tokens.length ≤ 2 ^ 64

instance : Decidable (EndsFit tokenizer config units) :=
  inferInstanceAs (Decidable (∀ _ ∈ _, _))

/-- Whether a window counts. -/
def IsCounted (window : List Token) : Prop :=
  config.identifierNeighborsOnly = false ∨ ∃ token ∈ window, tokenizer.isIdentifier token

instance (window : List Token) : Decidable (IsCounted tokenizer config window) :=
  inferInstanceAs (Decidable (_ ∨ _))

/-- The number of units and positions whose window counts and begins with `path`. -/
def prefixCount (path : List TokenId) : Nat :=
  ((tokenLists tokenizer units).map fun tokens =>
    (List.range tokens.length).countP fun start =>
      IsCounted tokenizer config (windowAt config.order tokens start) ∧
        path <+: (windowAt config.order tokens start).map
          fun token => corpusId tokenizer config units token.text).sum

end Corpus

/-! ### Words and tokens -/

section Words

variable (tokenizer : Tokenizer) (config : ModelConfig) (units : List CorpusUnit)

/-- What training keeps of a token. -/
def wordOf (token : Token) : Word := ⟨token.text, tokenizer.isIdentifier token⟩

/-- What training reads of a corpus are the tokens of its units. -/
theorem units_readChunk_eq_map :
    (readChunk tokenizer units).units
      = (tokenLists tokenizer units).map fun tokens => tokens.map (wordOf tokenizer) := by
  rw [units_readChunk, tokenLists, List.map_filterMap]
  congr 1
  funext unit
  rw [wordsOf]
  cases tokenizer.tokenize unit.source <;> rfl

/-- What training counts first are the texts of the corpus. -/
theorem counts_readChunk_eq_ofKeys :
    (readChunk tokenizer units).counts = .ofKeys (texts tokenizer units) := by
  rw [counts_readChunk, units_readChunk_eq_map, texts, ← List.map_flatten, List.map_map]
  rfl

/-- The vocabulary of a corpus gives every text its rank. -/
theorem idOf_build_readChunk (text : String) :
    (Vocabulary.build (readChunk tokenizer units).counts config.vocabularyCutoff).idOf text
      = corpusId tokenizer config units text := by
  have hknown : ∀ other, other ∈ Vocabulary.knownTokens (.ofKeys (texts tokenizer units))
      config.vocabularyCutoff ↔ IsKnown tokenizer config units other := by
    intro other
    rw [Vocabulary.mem_knownTokens_iff, Tally.count_ofKeys]
    rfl
  -- The known tokens of the vocabulary are the known texts of the corpus, each once.
  have hperm : (Vocabulary.knownTokens (.ofKeys (texts tokenizer units))
      config.vocabularyCutoff).Perm
      ((texts tokenizer units).dedup.filter fun other => IsKnown tokenizer config units other) := by
    refine (List.perm_ext_iff_of_nodup (Vocabulary.nodup_knownTokens _ _)
      ((List.nodup_dedup _).filter _)).2 ?_
    intro other
    rw [hknown, List.mem_filter, List.mem_dedup, decide_eq_true_eq]
    refine ⟨fun h => ⟨?_, h⟩, And.right⟩
    exact List.count_pos_iff.1 (Nat.lt_of_le_of_lt (Nat.zero_le _) h.1)
  rw [counts_readChunk_eq_ofKeys, Vocabulary.idOf_build, Tally.count_ofKeys, corpusId,
    hperm.countP_eq, List.countP_filter]
  simp only [Bool.decide_and, Bool.and_comm]
  rfl

end Words

/-! ### One pass over the corpus -/

/-- The windows of a list are those that begin at its positions. -/
theorem windows_eq_map {α : Type} (order : Nat) (items : List α) :
    windows order items = (List.range items.length).map (windowAt order items) := by
  induction items with
  | nil => rfl
  | cons x rest ih =>
    rw [windows, ih, List.length_cons, List.range_succ_eq_map, List.map_cons, List.map_map]
    rfl

/-- The windows that count are the same for words and for tokens. -/
theorem countedWindows_map_wordOf (tokenizer : Tokenizer) (config : ModelConfig)
    (tokens : List Token) :
    countedWindows config (tokens.map (wordOf tokenizer))
      = (((List.range tokens.length).map (windowAt config.order tokens)).filter
          fun window => IsCounted tokenizer config window).map (List.map (wordOf tokenizer)) := by
  -- Words are tokens with the question answered whether they are identifiers, so windows of words
  -- are windows of tokens and the test of a window gives the same answer.
  have hwindows : windows config.order (tokens.map (wordOf tokenizer))
      = ((List.range tokens.length).map (windowAt config.order tokens)).map
          (List.map (wordOf tokenizer)) := by
    rw [windows_eq_map, List.length_map, List.map_map]
    refine List.map_congr_left ?_
    intro start _
    simp only [windowAt, Function.comp_apply, List.map_take, List.map_drop]
  rw [countedWindows, hwindows, List.filter_map]
  congr 1
  refine List.filter_congr ?_
  intro window _
  have hany : (window.map (wordOf tokenizer)).any Word.isIdentifier
      = window.any tokenizer.isIdentifier := by
    rw [List.any_map]
    rfl
  rw [Function.comp_apply, hany, Bool.eq_iff_iff, decide_eq_true_eq, IsCounted]
  simp

/-- One pass over the corpus counts what `prefixCount` says. -/
theorem count_countChunk_eq_prefixCount (tokenizer : Tokenizer) (config : ModelConfig)
    (units : List CorpusUnit) (path : List TokenId) :
    (countChunk config
        (.build (readChunk tokenizer units).counts config.vocabularyCutoff)
        (readChunk tokenizer units).units).count path
      = prefixCount tokenizer config units path := by
  rw [count_countChunk, units_readChunk_eq_map, List.countP_flatMap, List.map_map, prefixCount]
  congr 1
  refine List.map_congr_left ?_
  intro tokens _
  rw [Function.comp_apply, Function.comp_apply, countedWindows_map_wordOf, List.countP_map,
    List.countP_filter, List.countP_map]
  refine List.countP_congr ?_
  intro start _
  -- Unit by unit and position by position, the two sides ask the same of the window there.
  have hids : ∀ window : List Token,
      idsOf (.build (readChunk tokenizer units).counts config.vocabularyCutoff)
        (window.map (wordOf tokenizer))
      = window.map fun token => corpusId tokenizer config units token.text := by
    intro window
    rw [idsOf, List.map_map]
    exact List.map_congr_left fun token _ => idOf_build_readChunk tokenizer config units token.text
  simp only [Function.comp_apply, hids, Bool.and_eq_true, decide_eq_true_eq, and_comm]

/-- No window is longer than the order of the model, so no longer sequence is counted. -/
theorem prefixCount_eq_zero (tokenizer : Tokenizer) (config : ModelConfig)
    (units : List CorpusUnit) {path : List TokenId} (h : config.order < path.length) :
    prefixCount tokenizer config units path = 0 := by
  rw [prefixCount, List.sum_eq_zero_iff_forall_eq_nat]
  intro n hn
  obtain ⟨tokens, -, rfl⟩ := List.mem_map.1 hn
  rw [List.countP_eq_zero]
  -- A window that begins with `path` is at least as long as `path`.
  intro start _ hbegin
  have hstart := (of_decide_eq_true hbegin).2.length_le
  rw [List.length_map, windowAt, List.length_take] at hstart
  omega

/-- The counts of a trained model. -/
theorem count_inOneGo (tokenizer : Tokenizer) (config : ModelConfig) (units : List CorpusUnit)
    (path : List TokenId) :
    (inOneGo tokenizer config units).model.counts.count path
      = if path.length ≤ 1 ∨ config.ngramCutoff < prefixCount tokenizer config units path then
          prefixCount tokenizer config units path
        else 0 := by
  show (CountTrie.cutoffRare _ _).count path = _
  rw [CountTrie.count_cutoffRare (wellFormed_countChunk ..), count_countChunk_eq_prefixCount]

/-! ### What training needs of the machine -/

/-- An end that is a word of 64 bits is the end of the window. -/
theorem windowAt?_eq_some {α : Type} {order : Nat} {tokens : List α}
    (h : order + tokens.length ≤ 2 ^ 64) {start : Nat} (hstart : start < tokens.length) :
    windowAt? order tokens start = some (windowAt order tokens start) := by
  have hend : (start + order) % 2 ^ 64 = start + order := Nat.mod_eq_of_lt (by omega)
  have hle : start ≤ min (start + order) tokens.length := by omega
  rw [windowAt?, hend, if_pos hle, windowAt, List.drop_take]
  rcases Nat.le_total (start + order) tokens.length with hinside | hcut
  · rw [Nat.min_eq_left hinside, Nat.add_sub_cancel_left]
  · -- Both take all that there is from the start on.
    have hlength : (tokens.drop start).length ≤ order := by
      rw [List.length_drop]
      omega
    rw [Nat.min_eq_right hcut, List.take_of_length_le hlength, ← List.length_drop, List.take_length]

/-- Training gives an outcome, and each of its windows can be cut out of its unit. -/
structure Completes (machine : Machine) (tokenizer : Tokenizer) (config : ModelConfig)
    (units : List CorpusUnit) (outcome : TrainingOutcome) : Prop where
  train_eq : BackoffModel.train machine tokenizer config units = .ok outcome
  windowAt?_eq : ∀ tokens ∈ tokenLists tokenizer units, ∀ start < tokens.length,
    windowAt? config.order tokens start = some (windowAt config.order tokens start)

/-- Training completes where the ends of windows fit. -/
theorem completes_inOneGo (machine : Machine) {tokenizer : Tokenizer} {config : ModelConfig}
    (hconfig : config.validate = .ok ()) {units : List CorpusUnit} (hunits : units ≠ [])
    (hfits : EndsFit tokenizer config units) :
    Completes machine tokenizer config units (inOneGo tokenizer config units) where
  train_eq := train_eq_inOneGo machine tokenizer hconfig hunits
  windowAt?_eq tokens htokens _ hstart := windowAt?_eq_some (hfits tokens htokens) hstart

/-- **Training counts are exact.** Training a valid configuration on a corpus with units gives a
model, and no window of it runs into the end of a machine word, if the order and the tokens of the
longest unit come to no more than `2 ^ 64`. Its vocabulary gives every text its rank in the corpus,
and its trie counts a sequence of ids as often as a window that counts begins with it: always for
the empty sequence and for single ids, and for a longer one if that is more often than the n-gram
cutoff. All other sequences, those longer than the order among them, have count zero. -/
theorem counts_train (machine : Machine) (tokenizer : Tokenizer) (config : ModelConfig)
    (hconfig : config.validate = .ok ()) (units : List CorpusUnit) (hunits : units ≠ [])
    (hfits : EndsFit tokenizer config units) :
    ∃ outcome, Completes machine tokenizer config units outcome ∧
      (∀ text, outcome.model.vocabulary.idOf text = corpusId tokenizer config units text) ∧
      (∀ path, outcome.model.counts.count path
        = if path.length ≤ 1 ∨ config.ngramCutoff < prefixCount tokenizer config units path then
            prefixCount tokenizer config units path
          else 0) ∧
      (∀ path, config.order < path.length → outcome.model.counts.count path = 0) ∧
      outcome.model.counts.total = prefixCount tokenizer config units [] := by
  refine ⟨inOneGo tokenizer config units, completes_inOneGo machine hconfig hunits hfits,
    idOf_build_readChunk tokenizer config units, count_inOneGo tokenizer config units, ?_, ?_⟩
  · intro path hpath
    rw [count_inOneGo, prefixCount_eq_zero tokenizer config units hpath, ite_self]
  · have htotal := count_inOneGo tokenizer config units []
    rw [CountTrie.count_nil, if_pos (.inl (Nat.zero_le 1))] at htotal
    exact htotal

/-! ### A corpus of letters -/

/-- Every character is a token, and a letter is an identifier. A text with a question mark has no
tokens. -/
def letters : Tokenizer where
  tokenize text :=
    if text.toList.contains '?' then .error (.tokenize (.other "question mark"))
    else .ok (text.toList.map fun c =>
      ⟨String.singleton c, if c.isAlpha then .identifier else .operator⟩)

/-- A configuration in which both cutoffs and the restriction to identifiers matter. -/
def pairConfig : ModelConfig :=
  { order := 2, vocabularyCutoff := 1, ngramCutoff := 1, identifierNeighborsOnly := true }

/-- Four units, the third of which has no tokens. -/
def pairUnits : List CorpusUnit :=
  [⟨"first", "a=b"⟩, ⟨"second", "a=="⟩, ⟨"third", "a=?"⟩, ⟨"fourth", "c"⟩]

/-- `=` is token 1 and `a` token 2, while `b` and `c` are seen too rarely. The window `==` holds
no identifier, so `=` counts once. The pair `a=` stays, and `=` with an unknown token goes. -/
theorem counts_train_pair :
    pairConfig.validate = .ok () ∧ pairUnits ≠ [] ∧ EndsFit letters pairConfig pairUnits ∧
      ∃ outcome, BackoffModel.train (.inTurn 4) letters pairConfig pairUnits = .ok outcome ∧
        outcome.model.counts.total = 5 ∧ outcome.model.counts.count [1] = 1 ∧
        outcome.model.counts.count [2, 1] = 2 ∧ outcome.model.counts.count [1, 0] = 0 := by
  have hconfig : pairConfig.validate = .ok () := by decide
  have hunits : pairUnits ≠ [] := by decide
  have hfits : EndsFit letters pairConfig pairUnits := by decide
  obtain ⟨outcome, hcompletes, -, hcount, -, htotal⟩ :=
    counts_train (.inTurn 4) letters pairConfig hconfig pairUnits hunits hfits
  -- The counts are those of the windows, five in all, that begin with the ids given.
  refine ⟨hconfig, hunits, hfits, outcome, hcompletes.train_eq, ?_, ?_, ?_, ?_⟩
  · rw [htotal]
    decide
  · rw [hcount]
    decide
  · rw [hcount]
    decide
  · rw [hcount]
    decide

end NaturalNames.Training
