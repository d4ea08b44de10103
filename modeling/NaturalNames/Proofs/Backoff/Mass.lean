import NaturalNames.Proofs.Backoff.Invariants
import NaturalNames.Proofs.Backoff.LongestSuffix
import NaturalNames.Proofs.CountTrie.Paths

/-!
# `NaturalNames.Proofs.Backoff.Mass`: probabilities add up

Every window that was counted begins with one id, and that id is one of the vocabulary. So the
counts of single ids add up to the number of windows (`Obtained.sum_count_singleton`), whichever
windows the restriction to identifiers left out; forgetting rare n-grams changes neither side. With
one on top of each count they add up to the divisor of every single token, and their shares to one.

Behind a sequence there is less to be had. A window may end there, and rare n-grams may be
forgotten, so the counts behind a sequence add up to its own count at most
(`CountTrie.sum_count_append_le`).
-/

set_option autoImplicit false

namespace NaturalNames

/-! ### Counts -/

/-- Windows are as many as those that begin with each id together. -/
theorem sum_countP_prefix {bound : Nat} {windows : List (List TokenId)}
    (h : ∀ window ∈ windows, ∃ first rest, window = first :: rest ∧ first < bound) :
    ∑ id ∈ Finset.range bound, windows.countP (fun window => [id] <+: window) = windows.length := by
  induction windows with
  | nil => simp
  | cons window others ih =>
    obtain ⟨first, rest, rfl, hfirst⟩ := h window List.mem_cons_self
    have hothers := ih fun other hother => h other (List.mem_cons_of_mem _ hother)
    have hbegins (id : TokenId) : [id] <+: first :: rest ↔ id = first := by
      simp [List.cons_prefix_cons]
    simp only [List.countP_cons, Finset.sum_add_distrib, hothers, List.length_cons, hbegins,
      decide_eq_true_eq]
    rw [Finset.sum_ite_eq', if_pos (Finset.mem_range.2 hfirst)]

namespace CountTrie

/-- Where windows were counted, the counts of single ids add up to the total. -/
theorem sum_count_foldl_add {bound : Nat} {windows : List (List TokenId)}
    (h : ∀ window ∈ windows, ∃ first rest, window = first :: rest ∧ first < bound) :
    let trie := windows.foldl (fun trie window => trie.add window) empty
    ∑ id ∈ Finset.range bound, trie.count [id] = trie.total := by
  intro trie
  have hcount (path : List TokenId) :
      trie.count path = windows.countP fun window => path <+: window := by
    rw [count_foldl_add _ .empty, count_empty, Nat.zero_add]
  have htotal : trie.total = windows.length := by
    rw [← count_nil, hcount]
    simp
  simp only [hcount, htotal]
  exact sum_countP_prefix h

/-- What goes on from a sequence was not counted more often than the sequence. -/
theorem sum_count_append_le {trie : CountTrie} (h : trie.WellFormed)
    (path : List TokenId) (ids : Finset TokenId) :
    ∑ id ∈ ids, trie.count (path ++ [id]) ≤ trie.count path := by
  have hnodup : ((trie.continuations path).map Prod.fst).Nodup :=
    List.pairwise_map.2 (ascending_continuations h path).distinctKeys
  have hcount : ∀ e ∈ trie.continuations path, trie.count (path ++ [e.1]) = e.2 := fun e he =>
    ((mem_continuations_iff h).1 he).1.symm
  -- Whatever the ids are, only those that the sequence went on with add anything.
  calc ∑ id ∈ ids, trie.count (path ++ [id])
      ≤ ∑ id ∈ ((trie.continuations path).map Prod.fst).toFinset, trie.count (path ++ [id]) := by
        refine Finset.sum_le_sum_of_ne_zero fun id _ hne => List.mem_toFinset.2 ?_
        exact List.mem_map.2 ⟨(id, _),
          (mem_continuations_iff h).2 ⟨rfl, Nat.pos_of_ne_zero hne⟩, rfl⟩
    _ = ((trie.continuations path).map fun e => trie.count (path ++ [e.1])).sum := by
        rw [List.sum_toFinset _ hnodup, List.map_map]
        rfl
    _ = ((trie.continuations path).map Prod.snd).sum := by
        rw [List.map_congr_left hcount]
    _ ≤ trie.count path := sum_continuations_le h path

end CountTrie

namespace Training

/-- A window has at least one word. -/
theorem ne_nil_of_mem_windows {α : Type} {order : Nat} (horder : 0 < order) {items window : List α}
    (h : window ∈ windows order items) : window ≠ [] := by
  induction items with
  | nil => cases h
  | cons x rest ih =>
    rcases List.mem_cons.1 h with rfl | h
    · exact List.ne_nil_of_length_pos (by simp [horder])
    · exact ih h

/-- Windows that were counted with a vocabulary begin with one of its ids. -/
theorem sum_count_countChunk {config : ModelConfig} (horder : 0 < config.order)
    (known : List String) (units : List (List Word)) :
    ∑ id ∈ Finset.range (Vocabulary.ofTokens known).size,
        (countChunk config (.ofTokens known) units).count [id]
      = (countChunk config (.ofTokens known) units).total := by
  rw [countChunk_eq_foldl]
  refine CountTrie.sum_count_foldl_add fun window hwindow => ?_
  -- The first word of a window has the id of a token.
  obtain ⟨words, hwords, rfl⟩ := List.mem_map.1 hwindow
  obtain ⟨unit, -, hcounted⟩ := List.mem_flatMap.1 hwords
  obtain ⟨word, rest, rfl⟩ :=
    List.exists_cons_of_ne_nil (ne_nil_of_mem_windows horder (List.mem_of_mem_filter hcounted))
  exact ⟨_, _, rfl, Vocabulary.idOf_ofTokens_lt known word.text⟩

end Training

namespace BackoffModel

open Training

variable {config : ModelConfig} {model : BackoffModel}

/-- The counts of single ids add up to the number of windows, in trained and in untrained models. -/
theorem Obtained.sum_count_singleton (h : Obtained config model) :
    ∑ id ∈ Finset.range model.vocabulary.size, model.counts.count [id] = model.counts.total := by
  cases h with
  | trained h =>
    obtain ⟨hconfig, rfl⟩ := eq_inOneGo_of_train h
    rw [ModelConfig.validate_eq_ok_iff] at hconfig
    -- Forgetting rare n-grams leaves the total and the counts of single ids.
    simp only [inOneGo, CountTrie.total_cutoffRare, CountTrie.count_cutoffRare
      (wellFormed_countChunk ..), List.length_singleton, le_refl, true_or, if_true]
    exact sum_count_countChunk hconfig.1 _ _
  | untrained h =>
    obtain ⟨-, rfl⟩ := eq_of_untrained h
    exact Finset.sum_eq_zero fun id _ => CountTrie.count_empty [id]

/-! ### Probabilities -/

/-- A token by itself has the estimate of its id, whatever the order. -/
theorem estimateOf_single (model : BackoffModel) (token : String) :
    model.estimateOf (.single token) = model.unigram (model.vocabulary.idOf token) := by
  have htokens : ((NGram.single token).suffix model.order).tokens = [token] := by
    show [token].drop (1 - max 1 model.order) = [token]
    rw [Nat.sub_eq_zero_of_le (Nat.le_max_left 1 _), List.drop_zero]
  rw [estimateOf, htokens]
  rfl

/-- The ids of the tokens, in the order of the vocabulary. -/
theorem idsOf_tokens (h : model.vocabulary.Consistent) :
    model.idsOf model.vocabulary.tokens = List.range model.vocabulary.size := by
  refine List.ext_getElem (by simp [idsOf, Vocabulary.size]) fun id hid _ => ?_
  rw [idsOf, List.length_map] at hid
  have hidOf : model.vocabulary.idOf model.vocabulary.tokens[id] = id :=
    h.idOf_eq (List.getElem?_eq_getElem hid)
  simp [idsOf, hidOf]

/-- A token alone has the share of its id. -/
theorem probability_single_real (model : BackoffModel) (token : String) :
    (model.probability (.single token) : ℝ)
      = ((model.counts.count [model.vocabulary.idOf token] + 1 : ℕ) : ℝ)
        / (model.counts.total + model.vocabulary.size : ℕ) := by
  rw [probability_real, estimateOf_single, unigram, pow_zero, one_mul]

/-- Where the counts add up to the total, the shares add up to one. -/
theorem sum_probability_single (h : model.vocabulary.Consistent)
    (hmass : ∑ id ∈ Finset.range model.vocabulary.size, (model.counts.count [id] + 1)
      = model.counts.total + model.vocabulary.size) :
    (model.vocabulary.tokens.map fun token => (model.probability (.single token) : ℝ)).sum = 1 := by
  have hpos : (0 : ℝ) < (model.counts.total + model.vocabulary.size : ℕ) :=
    Nat.cast_pos.2 (Nat.add_pos_right _ h.size_pos)
  let share (id : TokenId) : ℝ :=
    ((model.counts.count [id] + 1 : ℕ) : ℝ) / (model.counts.total + model.vocabulary.size : ℕ)
  -- The tokens are walked by their ids, each of which has one share of the common divisor.
  calc (model.vocabulary.tokens.map fun token => (model.probability (.single token) : ℝ)).sum
      = ((model.idsOf model.vocabulary.tokens).map share).sum := by
        rw [idsOf, List.map_map]
        exact congrArg List.sum (List.map_congr_left fun token _ =>
          model.probability_single_real token)
    _ = ∑ id ∈ Finset.range model.vocabulary.size, share id := by
        rw [idsOf_tokens h, ← List.toFinset_range, List.sum_toFinset _ List.nodup_range]
    _ = 1 := by
        rw [← Finset.sum_div, ← Nat.cast_sum, hmass, div_self hpos.ne']

/-- An id that was counted behind a sequence has no discount. -/
theorem estimate_append_of_count_pos (model : BackoffModel) {history : List TokenId} {id : TokenId}
    (hhistory : history ≠ []) (hcount : 0 < model.counts.count (history ++ [id])) :
    model.estimate (history ++ [id])
      = ⟨0, model.counts.count (history ++ [id]), model.counts.count history⟩ := by
  have hlength : 2 ≤ (history ++ [id]).length := by
    have hpos : 0 < history.length := List.length_pos_iff.2 hhistory
    rw [List.length_append, List.length_singleton]
    omega
  rw [estimate_eq_of_longestSeen model (.of_count_pos hlength hcount), estimateFrom,
    if_pos hlength, if_pos hlength, Nat.sub_self, List.dropLast_concat]

/-- **Probabilities add up.** Take a model from a configuration, whatever its cutoffs and whether or
not it was kept to identifiers.

The counts of the ids of the vocabulary, one more for each, add up to the total and the size of the
vocabulary. Every such id is that of one token, and one of the tokens is the symbol for unknown
names. So in exact arithmetic the probabilities of the tokens add up to one. The ids of up to
`2 ^ 32` tokens are words of 32 bits.

Behind a sequence that was counted, an id that was counted with it has the quotient of the two
counts for its estimate, without a discount. Over any ids these quotients add up to one at most. -/
theorem probability_mass (h : Obtained config model) :
    (∑ id ∈ Finset.range model.vocabulary.size, (model.counts.count [id] + 1)
      = model.counts.total + model.vocabulary.size) ∧
    model.idsOf model.vocabulary.tokens = List.range model.vocabulary.size ∧
    (model.vocabulary.size ≤ 2 ^ 32 → ∀ token, model.vocabulary.idOf token < 2 ^ 32) ∧
    unknownSymbol ∈ model.vocabulary.tokens ∧
    (model.vocabulary.tokens.map fun token => (model.probability (.single token) : ℝ)).sum = 1 ∧
    ∀ history, 0 < model.counts.count history →
      (∀ id, history ≠ [] → 0 < model.counts.count (history ++ [id]) →
        model.estimate (history ++ [id])
          = ⟨0, model.counts.count (history ++ [id]), model.counts.count history⟩) ∧
      ∀ ids : Finset TokenId,
        ∑ id ∈ ids, (model.counts.count (history ++ [id]) : ℝ) / model.counts.count history
          ≤ 1 := by
  have hvocabulary := h.consistent_vocabulary
  have hmass : ∑ id ∈ Finset.range model.vocabulary.size, (model.counts.count [id] + 1)
      = model.counts.total + model.vocabulary.size := by
    rw [Finset.sum_add_distrib, h.sum_count_singleton, Finset.sum_const, Finset.card_range,
      smul_eq_mul, mul_one]
  have hunknown : unknownSymbol ∈ model.vocabulary.tokens :=
    List.mem_of_getElem? hvocabulary.token?_unknownId
  refine ⟨hmass, idsOf_tokens hvocabulary,
    fun hsize token => Nat.lt_of_lt_of_le (hvocabulary.idOf_lt token) hsize, hunknown,
    sum_probability_single hvocabulary hmass,
    fun history hhistory =>
      ⟨fun id hne hcount => model.estimate_append_of_count_pos hne hcount, fun ids => ?_⟩⟩
  -- The quotients have one divisor, so the counts behind the sequence are compared with it.
  rw [← Finset.sum_div, ← Nat.cast_sum, div_le_one (Nat.cast_pos.2 hhistory), Nat.cast_le]
  exact CountTrie.sum_count_append_le h.wellFormed.counts history ids

/-- In the corpus of letters `a` came twice, both times before `=`. Five windows and three tokens
make shares of an eighth. -/
theorem probability_mass_pair :
    ∃ model, Obtained pairConfig model ∧ model.counts.total = 5 ∧
      model.vocabulary.tokens = [unknownSymbol, "=", "a"] ∧
      (model.counts.count [0] + 1) + (model.counts.count [1] + 1) + (model.counts.count [2] + 1)
        = 5 + 3 ∧
      (model.probability (.single unknownSymbol) : ℝ) + model.probability (.single "=")
        + model.probability (.single "a") = 1 ∧
      model.estimate [2, 1] = ⟨0, 2, 2⟩ ∧
      (model.counts.count [2, 0] : ℝ) / model.counts.count [2]
        + (model.counts.count [2, 1] : ℝ) / model.counts.count [2] ≤ 1 := by
  let model := (inOneGo letters pairConfig pairUnits).model
  have hmodel : Obtained pairConfig model := obtained_letters
  have htotal : model.counts.total = 5 := by decide +kernel
  have htokens : model.vocabulary.tokens = [unknownSymbol, "=", "a"] := by decide +kernel
  have hsize : model.vocabulary.size = 3 := congrArg List.length htokens
  have ha : model.counts.count [2] = 2 := by decide +kernel
  have hpair : model.counts.count [2, 1] = 2 := by decide +kernel
  obtain ⟨hsum, -, -, -, hone, hbehind⟩ := probability_mass hmodel
  obtain ⟨hestimate, hle⟩ := hbehind [2] (by rw [ha]; decide)
  refine ⟨model, hmodel, htotal, htokens, ?_, ?_, ?_, ?_⟩
  · rw [htotal, hsize] at hsum
    simpa [Finset.sum_range_succ] using hsum
  · rw [htokens] at hone
    simpa [add_assoc] using hone
  · have hshare := hestimate 1 (by decide) (by rw [List.singleton_append, hpair]; decide)
    rwa [List.singleton_append, hpair, ha] at hshare
  · simpa using hle {0, 1}

end BackoffModel

end NaturalNames
