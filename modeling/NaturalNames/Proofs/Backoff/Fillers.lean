import Mathlib.Data.List.DropRight
import NaturalNames.Proofs.Backoff.Invariants
import NaturalNames.Proofs.CountTrie.Paths
import NaturalNames.Proofs.NGram
import NaturalNames.Proofs.Ordered.Tally
import NaturalNames.Proofs.Ordered.Words

/-!
# `NaturalNames.Proofs.Backoff.Fillers`: the names that a model finds

A model looks for names in its trie. It goes through the ids that were seen behind the history of
an open token, and cuts a name out of the token of each. Looked at from a name this is a count: put
in the open place, the name makes a token, and the sequence up to that token was counted or not
(`countInPlace`). The two agree as long as a token is made by one name only, for which the wildcard
has to stand once in the open token (`nameOf?_eq_some_iff`).

* `sumOf_fillersIn` says so of one n-gram, and `fillers_exact` of all contexts together.
* The ids behind a history may be met in any order, one for each n-gram (`fillersWalked_eq`).
* The weights of contexts are whatever a caller gives them. What a machine with words of 64 bits
  finds a name with (`fillersWords`) is the sum if that is below `2 ^ 64`.
-/

set_option autoImplicit false

namespace NaturalNames.BackoffModel

open Training

variable {config : ModelConfig} {model : BackoffModel} {ngram : NGram} {weight : Nat}

/-! ### Names and ids -/

/-- A name is found at one id at most, that of the token with the name in it. -/
theorem nameOf?_eq_some_iff (hvocabulary : model.vocabulary.Consistent) {template : String}
    (htemplate : Text.OccursOnce wildcard template) {name : String} {id : TokenId} :
    model.nameOf? template id = some name ↔
      id = model.vocabulary.idOf (NGram.fillToken name template) ∧ id ≠ unknownId ∧ name ≠ "" := by
  rw [nameOf?]
  split
  next hid => simp [hid]
  next hid =>
    rw [Option.bind_eq_some_iff]
    constructor
    · -- The vocabulary is one numbering, so the token of the id is the filled one if and only if
      -- the id of the filled token is this one.
      rintro ⟨token, htoken, hname⟩
      obtain ⟨hne, rfl⟩ := (NGram.fill?_eq_some_iff htemplate).1 hname
      exact ⟨(hvocabulary.idOf_eq htoken).symm, hid, hne⟩
    · rintro ⟨rfl, -, hne⟩
      exact ⟨_, (hvocabulary.ids_iff _ _).1 (Vocabulary.get?_of_idOf_ne hid),
        (NGram.fill?_eq_some_iff htemplate).2 ⟨hne, rfl⟩⟩

/-- Behind a sequence each id is met once, with the count of the longer sequence. -/
theorem sumOf_continuations {trie : CountTrie} (h : trie.WellFormed) (path : List TokenId)
    (id : TokenId) : Tally.sumOf (trie.continuations path) id = trie.count (path ++ [id]) := by
  rcases Nat.eq_zero_or_pos (trie.count (path ++ [id])) with hzero | hpos
  · rw [hzero]
    refine Tally.sumOf_eq_zero fun e he heq => ?_
    obtain ⟨hcount, hpos⟩ := (CountTrie.mem_continuations_iff h).1 he
    rw [heq, hzero] at hcount
    omega
  · exact Tally.sumOf_of_distinctKeys (CountTrie.ascending_continuations h path).distinctKeys
      ((CountTrie.mem_continuations_iff h).2 ⟨rfl, hpos⟩)

/-! ### One n-gram -/

/-- The tokens that a model looks at are the last ones before the position. -/
theorem history_eq_rtake {tokens : List String} {position : Nat} (h : position ≤ tokens.length) :
    model.history tokens position
      = (tokens.take position).rtake (min position (model.order - 1)) := by
  rw [history, List.rtake, List.length_take, Nat.min_eq_left h]
  congr 1
  omega

/-- How often the model counted the tokens in front of the first open one, the last `order - 1` of
them at most, with that token behind them and the name in it. A token that is not known was not
counted, and where the first token is the open one nothing is counted. -/
def countInPlace (model : BackoffModel) (name : String) (ngram : NGram) : Nat :=
  match ngram.wildcardPosition? with
  | none => 0
  | some position =>
    let front := (ngram.tokens.take position).rtake (min position (model.order - 1))
    let filled := NGram.fillToken name ((ngram.tokens[position]?).getD "")
    if 0 < position ∧ filled ∈ model.vocabulary.tokens ∧ filled ≠ unknownSymbol then
      model.counts.count (model.idsOf (front ++ [filled]))
    else 0

/-- An n-gram that is open at its first token or nowhere. -/
theorem fillersIn_eq_nil (h : ∀ position, ngram.wildcardPosition? = some position → position = 0) :
    model.fillersIn wildcard ngram weight = [] := by
  rw [fillersIn]
  split
  next => rfl
  next position hposition => rw [if_pos (h position hposition)]

/-- Where the first token is open, or none is, nothing is counted in place. -/
theorem countInPlace_eq_zero
    (h : ∀ position, ngram.wildcardPosition? = some position → position = 0) (name : String) :
    model.countInPlace name ngram = 0 := by
  rw [countInPlace]
  split
  next => rfl
  next position hposition =>
    refine if_neg fun hcond => ?_
    rw [h position hposition] at hcond
    exact Nat.lt_irrefl 0 hcond.1

section

variable {position : Nat} (hposition : ngram.wildcardPosition? = some position)
  (hpos : 0 < position) {template : String} (htemplate : ngram.tokens[position]? = some template)

include hposition hpos htemplate

/-- An n-gram that is open behind other tokens. -/
theorem fillersIn_eq_filterMap :
    model.fillersIn wildcard ngram weight
      = (model.counts.continuations
          (model.idsOf (model.history ngram.tokens position))).filterMap fun e =>
        (model.nameOf? template e.1).map fun name => (name, e.2 * weight) := by
  have hfind : ngram.tokens.findIdx? (Text.occurs wildcard) = some position := hposition
  rw [fillersIn, hfind]
  simp only [if_neg (Nat.ne_of_gt hpos), htemplate, Option.getD_some]

/-- What is counted in place of an open token is the history with the filled token behind, if the
model knows that token. -/
theorem countInPlace_eq_count (hvocabulary : model.vocabulary.Consistent) (name : String) :
    model.countInPlace name ngram
      = if model.vocabulary.idOf (NGram.fillToken name template) ≠ unknownId then
          model.counts.count (model.idsOf (model.history ngram.tokens position)
            ++ [model.vocabulary.idOf (NGram.fillToken name template)])
        else 0 := by
  have hlt := (List.getElem?_eq_some_iff.1 htemplate).1
  rw [countInPlace, hposition, history_eq_rtake (Nat.le_of_lt hlt)]
  simp only [htemplate, Option.getD_some, hpos, true_and, ← hvocabulary.idOf_ne_unknownId_iff]
  rw [idsOf, List.map_append]
  rfl

end

/-- What one n-gram adds for a name. -/
theorem sumOf_fillersIn (hvocabulary : model.vocabulary.Consistent)
    (hcounts : model.counts.WellFormed) (hopen : ngram.OpenOnce) (weight : Nat) (name : String) :
    Tally.sumOf (model.fillersIn wildcard ngram weight) name
      = if name ≠ "" then weight * model.countInPlace name ngram else 0 := by
  rcases ngram.open_cases with h | ⟨position, template, hposition, hpos, htemplate, hfirst⟩
  · rw [fillersIn_eq_nil h, countInPlace_eq_zero h, Nat.mul_zero, ite_self]
    rfl
  · rw [fillersIn_eq_filterMap hposition hpos htemplate,
      countInPlace_eq_count hposition hpos htemplate hvocabulary]
    -- The name is found at the id of the token that it makes, unless one of them is ruled out.
    have hname : ∀ id, model.nameOf? template id = some name ↔
        id = model.vocabulary.idOf (NGram.fillToken name template) ∧
          (model.vocabulary.idOf (NGram.fillToken name template) ≠ unknownId ∧ name ≠ "") := by
      intro id
      rw [nameOf?_eq_some_iff hvocabulary (hopen template hfirst)]
      exact and_congr_right fun hid => by rw [hid]
    rw [Tally.sumOf_filterMap_of_iff hname, sumOf_continuations hcounts]
    by_cases hempty : name ≠ "" <;> simp [hempty]

/-- What is found in an n-gram was counted, and its id is not the one of the unknown tokens. -/
theorem exists_of_mem_fillersIn (hcounts : model.counts.WellFormed) {e : String × Nat}
    (he : e ∈ model.fillersIn wildcard ngram weight) :
    ∃ template id n, ngram.tokens.find? NGram.isOpen = some template ∧
      model.nameOf? template id = some e.1 ∧ 0 < n ∧ e.2 = n * weight := by
  rcases ngram.open_cases with h | ⟨position, template, hposition, hpos, htemplate, hfirst⟩
  · rw [fillersIn_eq_nil h] at he
    cases he
  · rw [fillersIn_eq_filterMap hposition hpos htemplate, List.mem_filterMap] at he
    obtain ⟨⟨id, n⟩, hseen, hentry⟩ := he
    obtain ⟨name, hname, rfl⟩ := Option.map_eq_some_iff.1 hentry
    exact ⟨template, id, n, hfirst, hname,
      ((CountTrie.mem_continuations_iff hcounts).1 hseen).2, rfl⟩

/-- The symbol for unknown names is not found behind a bare wildcard. -/
theorem ne_unknownSymbol_of_mem_fillersIn (hvocabulary : model.vocabulary.Consistent)
    (hcounts : model.counts.WellFormed) (hbare : ngram.tokens.find? NGram.isOpen = some wildcard)
    {e : String × Nat} (he : e ∈ model.fillersIn wildcard ngram weight) : e.1 ≠ unknownSymbol := by
  obtain ⟨template, id, n, hfirst, hname, -⟩ := exists_of_mem_fillersIn hcounts he
  obtain rfl : wildcard = template := Option.some.inj (hbare.symm.trans hfirst)
  obtain ⟨hid, hne, -⟩ := (nameOf?_eq_some_iff hvocabulary NGram.occursOnce_wildcard).1 hname
  rw [NGram.fillToken_wildcard] at hid
  rw [hid, hvocabulary.idOf_ne_unknownId_iff] at hne
  exact hne.2

/-! ### The order of a walk -/

/-- The names that are seen where one n-gram is open, if the ids behind its history are met in the
order that `walk` brings them into. -/
def fillersInWalked (model : BackoffModel) (walk : List (TokenId × Nat) → List (TokenId × Nat))
    (mark : String) (ngram : NGram) (weight : Nat) : List (String × Nat) :=
  match ngram.tokens.findIdx? (Text.occurs mark) with
  | none => []
  | some position =>
    if position = 0 then []
    else
      let template := (ngram.tokens[position]?).getD ""
      let seen := walk (model.counts.continuations
        (model.idsOf (model.history ngram.tokens position)))
      seen.filterMap fun (id, n) => (model.nameOf? template id).map fun name => (name, n * weight)

/-- The names that are found where each n-gram has an order of its own. -/
def fillersWalked (model : BackoffModel)
    (walk : NGram → List (TokenId × Nat) → List (TokenId × Nat)) (contexts : ContextSet)
    (mark : String) : Tally String :=
  .ofCounts (contexts.entries.flatMap fun (ngram, weight) =>
    model.fillersInWalked (walk ngram) mark ngram weight)

/-- A walk in another order finds the same names in another order. -/
theorem perm_fillersInWalked {walk : List (TokenId × Nat) → List (TokenId × Nat)}
    (hwalk : ∀ seen, (walk seen).Perm seen) (mark : String) (ngram : NGram) (weight : Nat) :
    (model.fillersInWalked walk mark ngram weight).Perm (model.fillersIn mark ngram weight) := by
  rw [fillersInWalked, fillersIn]
  cases ngram.tokens.findIdx? (Text.occurs mark) with
  | none => exact .refl _
  | some position =>
    by_cases hzero : position = 0
    · simp only [hzero, if_true, List.Perm.refl]
    · simp only [if_neg hzero]
      exact (hwalk _).filterMap _

/-- The order of the walk makes no difference to the tally. -/
theorem fillersWalked_eq {walk : NGram → List (TokenId × Nat) → List (TokenId × Nat)}
    (hwalk : ∀ ngram seen, (walk ngram seen).Perm seen) (contexts : ContextSet) (mark : String) :
    model.fillersWalked walk contexts mark = model.fillers contexts mark :=
  Tally.ofCounts_perm (List.Perm.flatMap_left _ fun e _ =>
    perm_fillersInWalked (hwalk e.1) mark e.1 e.2)

/-! ### All contexts -/

/-- What a name is found with in all contexts. -/
def sumInPlace (model : BackoffModel) (contexts : ContextSet) (name : String) : Nat :=
  (contexts.entries.map fun e => e.2 * model.countInPlace name e.1).sum

/-- No name was counted in place more often than there were windows. -/
theorem countInPlace_le_total (hcounts : model.counts.Falling) (name : String) (ngram : NGram) :
    model.countInPlace name ngram ≤ model.counts.total := by
  rw [countInPlace]
  split
  next => exact Nat.zero_le _
  next =>
    dsimp only
    split
    next => exact CountTrie.count_le_total hcounts _
    next => exact Nat.zero_le _

/-- No sum exceeds the weight of all contexts times the number of windows. -/
theorem sumInPlace_le (hcounts : model.counts.Falling) (contexts : ContextSet) (name : String) :
    model.sumInPlace contexts name ≤ contexts.total * model.counts.total := by
  have htotal : contexts.total = (contexts.entries.map Prod.snd).sum := rfl
  rw [sumInPlace, htotal, ← List.sum_map_mul_right]
  exact List.sum_le_sum fun e _ =>
    Nat.mul_le_mul_left e.2 (countInPlace_le_total hcounts name e.1)

/-- The names that are found where products and sums are words of 64 bits. -/
def fillersWords (model : BackoffModel) (contexts : ContextSet) (mark : String) : Tally String :=
  let found := contexts.entries.flatMap fun (ngram, weight) => model.fillersIn mark ngram weight
  found.foldl (fun sums e => sums.addWord e.1 e.2) .empty

/-- Each name has its exact sum, modulo `2 ^ 64`. -/
theorem fillersWords_eq_wrap (model : BackoffModel) (contexts : ContextSet) (mark : String) :
    model.fillersWords contexts mark = (model.fillers contexts mark).wrap :=
  Tally.foldl_addWord _

/-- Without words, a name is found with its sum. -/
theorem get?_fillers (hvocabulary : model.vocabulary.Consistent)
    (hcounts : model.counts.WellFormed) {contexts : ContextSet}
    (hweights : ∀ e ∈ contexts.entries, 0 < e.2)
    (hopen : ∀ e ∈ contexts.entries, e.1.OpenOnce) (name : String) :
    (model.fillers contexts wildcard).get? name
      = if name ≠ "" ∧ 0 < model.sumInPlace contexts name then
          some (model.sumInPlace contexts name)
        else none := by
  -- Only counts above zero are collected, with weights above zero. So a listed sum is not zero.
  have hpos : ∀ e ∈ contexts.entries.flatMap fun e => model.fillersIn wildcard e.1 e.2,
      0 < e.2 := by
    intro e he
    obtain ⟨context, hcontext, he⟩ := List.mem_flatMap.1 he
    obtain ⟨-, -, count, -, -, hcount, heq⟩ := exists_of_mem_fillersIn hcounts he
    rw [heq]
    exact Nat.mul_pos hcount (hweights context hcontext)
  have hsum : Tally.sumOf (contexts.entries.flatMap fun e => model.fillersIn wildcard e.1 e.2) name
      = if name ≠ "" then model.sumInPlace contexts name else 0 := by
    rw [Tally.sumOf_flatMap, sumInPlace, List.map_congr_left fun e he =>
      sumOf_fillersIn hvocabulary hcounts (hopen e he) e.2 name]
    split
    next => rfl
    next => simp
  show (Tally.ofCounts (contexts.entries.flatMap fun e =>
    model.fillersIn wildcard e.1 e.2)).get? name
    = _
  rw [Tally.get?_ofCounts_of_pos hpos, hsum]
  by_cases hname : name ≠ "" <;> simp [hname]

/-- **The search for names is exact.** Take a model from a configuration, contexts with positive
weights whose first open tokens have the wildcard once, and words of 64 bits that hold the sum of
every name. A name is found if and only if it is not empty and was counted in the open place of some
context. What it is found with is the sum of these counts, each times the weight of its context.

The symbol for unknown names is found behind no bare wildcard, and the order in which a walk meets
the ids behind the history of a context makes no difference. -/
theorem fillers_exact (h : Obtained config model) {contexts : ContextSet}
    (hweights : ∀ e ∈ contexts.entries, 0 < e.2)
    (hopen : ∀ e ∈ contexts.entries, e.1.OpenOnce)
    (hfits : ∀ name, model.sumInPlace contexts name < 2 ^ 64) :
    (∀ name,
      (model.fillersWords contexts wildcard).get? name
        = if name ≠ "" ∧ 0 < model.sumInPlace contexts name then
            some (model.sumInPlace contexts name)
          else none) ∧
    (∀ ngram : NGram, ngram.tokens.find? NGram.isOpen = some wildcard →
      ∀ weight, ∀ e ∈ model.fillersIn wildcard ngram weight, e.1 ≠ unknownSymbol) ∧
    ∀ walk : NGram → List (TokenId × Nat) → List (TokenId × Nat),
      (∀ ngram seen, (walk ngram seen).Perm seen) →
      (model.fillersWalked walk contexts wildcard).wrap
        = model.fillersWords contexts wildcard := by
  have hvocabulary := h.consistent_vocabulary
  have hcounts := h.wellFormed.counts
  have hget := get?_fillers hvocabulary hcounts hweights hopen
  simp only [fillersWords_eq_wrap]
  refine ⟨fun name => ?_, fun ngram hbare weight e =>
    ne_unknownSymbol_of_mem_fillersIn hvocabulary hcounts hbare, fun walk hwalk => ?_⟩
  · -- Whatever is listed is listed with a sum, and no sum leaves its word.
    have hwords : (model.fillers contexts wildcard).wrap = model.fillers contexts wildcard := by
      refine Tally.wrap_eq_self fun e he => ?_
      have hlisted := SortedMap.get?_eq_some_iff.2 he
      rw [hget] at hlisted
      split at hlisted
      next =>
        rw [← Option.some.inj hlisted]
        exact hfits e.1
      next => cases hlisted
    rw [hwords, hget]
  · rw [fillersWalked_eq hwalk contexts wildcard]

/-- In the corpus of letters `=` came behind `a` twice, so a context of weight three finds it six
times. A context that is open at its first token adds nothing. -/
theorem fillers_exact_pair :
    let model := (inOneGo letters pairConfig pairUnits).model
    let contexts : ContextSet :=
      .ofList [(⟨["a", wildcard], by decide⟩, 3), (⟨[wildcard, "a"], by decide⟩, 5)]
    Obtained pairConfig model ∧ (∀ e ∈ contexts.entries, 0 < e.2) ∧
      (∀ e ∈ contexts.entries, e.1.OpenOnce) ∧
      (∀ name, model.sumInPlace contexts name < 2 ^ 64) ∧
      (model.fillersWords contexts wildcard).get? "=" = some 6 ∧
      (model.fillersWords contexts wildcard).get? "a" = none ∧
      (model.fillersWalked (fun _ => List.reverse) contexts wildcard).wrap
        = model.fillersWords contexts wildcard := by
  intro model contexts
  have hobtained : Obtained pairConfig model :=
    .trained (train_eq_inOneGo (.inTurn 4) letters (by decide) (by decide))
  have hweights : ∀ e ∈ contexts.entries, 0 < e.2 := by decide +kernel
  have hbare : ∀ e ∈ contexts.entries, e.1.tokens.find? NGram.isOpen = some wildcard := by
    decide +kernel
  have hopen : ∀ e ∈ contexts.entries, e.1.OpenOnce := fun e he =>
    NGram.openOnce_of_bare (hbare e he)
  -- Each of the weights counts the five windows at most, which is far below the bound.
  have hfits : ∀ name, model.sumInPlace contexts name < 2 ^ 64 := by
    intro name
    have hproduct : contexts.total * model.counts.total = 40 := by decide +kernel
    have hle := sumInPlace_le hobtained.wellFormed.counts.falling contexts name
    omega
  obtain ⟨hfillers, -, hwalked⟩ := fillers_exact hobtained hweights hopen hfits
  refine ⟨hobtained, hweights, hopen, hfits, ?_, ?_, hwalked _ fun _ seen => List.reverse_perm seen⟩
  · have hsum : model.sumInPlace contexts "=" = 6 := by decide +kernel
    rw [hfillers, hsum]
    rfl
  · have hsum : model.sumInPlace contexts "a" = 0 := by decide +kernel
    rw [hfillers, hsum]
    rfl

end NaturalNames.BackoffModel
