import NaturalNames.Proofs.Ordered.Sort
import NaturalNames.Proofs.Vocabulary

/-!
# `NaturalNames.Proofs.Vocabulary.Numbering`: tokens are numbered one by one

`Vocabulary.build` numbers tokens that stand in order, since counts are kept in key order. A walk
over an unordered map meets them in any order. `buildWalked` is the loop for such a walk: the tokens
that are kept are sorted, and then pushed one after the other, each with the next id. Both sides of
the vocabulary change in every step.

* `Consistent.push`: a step keeps both sides inverse to each other, if the token is a new one.
* `Consistent.foldl_push`: a run does, if the tokens are distinct and not in the vocabulary yet.
* `Consistent.eq_of_tokens`: the tokens of a consistent vocabulary determine its ids.
* `buildWalked_eq_build`: so the order in which the counts are met makes no difference.
* `numbering_of_counts` puts this together.

Ids are natural numbers here. A machine keeps them in words of 32 bits, so past `2 ^ 32` tokens it
would number from zero again; `buildWords` is its loop. Up to that size every id is a word
(`foldl_pushWord_eq_foldl_push`).
-/

set_option autoImplicit false

namespace NaturalNames.Vocabulary

variable {vocabulary : Vocabulary} {token : String}

/-! ### One token -/

/-- The vocabulary with one more token, which gets the next id. -/
def push (vocabulary : Vocabulary) (token : String) : Vocabulary where
  ids := vocabulary.ids.insert token vocabulary.size
  tokens := vocabulary.tokens ++ [token]

/-- A pushed token has the next id, and all others keep theirs. -/
theorem get?_ids_push (other : String) :
    (vocabulary.push token).ids.get? other
      = if other = token then some vocabulary.size else vocabulary.ids.get? other :=
  SortedMap.get?_alter vocabulary.ids token other _

/-- The next id has the pushed token, and all others keep theirs. -/
theorem token?_push (id : TokenId) :
    (vocabulary.push token).token? id
      = if id = vocabulary.size then some token else vocabulary.token? id := by
  show (vocabulary.tokens ++ [token])[id]? = _
  split
  next hid => rw [hid, size, List.getElem?_concat_length]
  next hid =>
    rw [token?]
    rcases Nat.lt_or_gt_of_ne hid with hlt | hgt
    · exact List.getElem?_append_left hlt
    · -- Behind the new token there is nothing, as there was before.
      have hle : vocabulary.tokens.length ≤ id := Nat.le_of_lt hgt
      have hle' : (vocabulary.tokens ++ [token]).length ≤ id := by
        rw [List.length_append, List.length_singleton]
        exact hgt
      rw [List.getElem?_eq_none hle, List.getElem?_eq_none hle']

/-- A token that is not in the vocabulary yet gets an id that is not in use yet. -/
theorem Consistent.push (h : vocabulary.Consistent) (hnew : token ∉ vocabulary.tokens) :
    (vocabulary.push token).Consistent := by
  have hunused : vocabulary.token? vocabulary.size = none :=
    List.getElem?_eq_none (Nat.le_refl _)
  constructor
  · have hne : unknownSymbol ≠ token := by
      rintro rfl
      exact hnew (List.mem_of_getElem? h.token?_unknownId)
    rw [get?_ids_push, if_neg hne]
    exact h.unknown
  · intro other id
    rw [get?_ids_push, token?_push]
    by_cases hother : other = token
    · rw [if_pos hother, hother]
      by_cases hid : id = vocabulary.size
      · simp [hid]
      · rw [if_neg hid]
        -- The new token was the token of no id.
        have hno : vocabulary.token? id ≠ some token := fun hsome =>
          hnew (List.mem_of_getElem? hsome)
        simp [hno, Ne.symm hid]
    · rw [if_neg hother, h.ids_iff]
      by_cases hid : id = vocabulary.size
      · simp [hid, hunused, Ne.symm hother]
      · rw [if_neg hid]

/-! ### All tokens -/

/-- Tokens that are pushed are listed in the order they are met. -/
theorem tokens_foldl_push (list : List String) (vocabulary : Vocabulary) :
    (list.foldl push vocabulary).tokens = vocabulary.tokens ++ list := by
  induction list generalizing vocabulary with
  | nil => exact (List.append_nil _).symm
  | cons token rest ih =>
    rw [List.foldl_cons, ih]
    show vocabulary.tokens ++ [token] ++ rest = _
    rw [List.append_assoc, List.singleton_append]

/-- Pushing distinct new tokens keeps both sides inverse to each other. -/
theorem Consistent.foldl_push {list : List String} (h : vocabulary.Consistent)
    (hnodup : (vocabulary.tokens ++ list).Nodup) :
    (list.foldl Vocabulary.push vocabulary).Consistent := by
  induction list generalizing vocabulary with
  | nil => exact h
  | cons token rest ih =>
    have hnew : token ∉ vocabulary.tokens := fun hmem =>
      (List.nodup_append.1 hnodup).2.2 token hmem token (List.mem_cons_self ..) rfl
    refine ih (h.push hnew) ?_
    show (vocabulary.tokens ++ [token] ++ rest).Nodup
    rw [List.append_assoc]
    exact hnodup

/-- Consistent vocabularies with the same tokens are the same. -/
theorem Consistent.eq_of_tokens {vocabulary' : Vocabulary} (h : vocabulary.Consistent)
    (h' : vocabulary'.Consistent) (htokens : vocabulary.tokens = vocabulary'.tokens) :
    vocabulary = vocabulary' := by
  have hids : vocabulary.ids = vocabulary'.ids := by
    refine SortedMap.eq_of_get? fun token => Option.ext fun id => ?_
    rw [h.ids_iff, h'.ids_iff, token?, token?, htokens]
  cases vocabulary
  cases vocabulary'
  cases hids
  cases htokens
  rfl

/-! ### Counts in any order -/

/-- The tokens counted more than `cutoff` times, in ascending order, if the counts are met in the
order of `listing`. -/
def keptTokens (listing : List (String × Nat)) (cutoff : Nat) : List String :=
  ((listing.filter fun e => cutoff < e.2 && e.1 ≠ unknownSymbol).map Prod.fst).mergeSort
    fun a b => (compare a b).isLE

/-- The vocabulary of counts that are met in the order of `listing`. -/
def buildWalked (listing : List (String × Nat)) (cutoff : Nat) : Vocabulary :=
  (keptTokens listing cutoff).foldl push unknownOnly

variable {counts : Tally String} {listing : List (String × Nat)}

/-- Whatever the order of the counts, the tokens that are kept come out in that of the map. -/
theorem keptTokens_eq_knownTokens (h : listing.Perm counts.entries) (cutoff : Nat) :
    keptTokens listing cutoff = knownTokens counts cutoff := by
  have hperm : (keptTokens listing cutoff).Perm (knownTokens counts cutoff) :=
    (List.mergeSort_perm _ _).trans ((h.filter _).map Prod.fst)
  have hascending : (knownTokens counts cutoff).Pairwise fun a b => (compare a b).isLE = true :=
    (SortedMap.pairwise_keys _).imp fun hlt => Ordering.isLE_of_eq_lt hlt
  refine List.Perm.eq_of_pairwise (fun a b _ _ hab hba => ?_) (pairwise_mergeSort_isLE _)
    hascending hperm
  have heq : compare a b = .eq := Std.OrientedCmp.isLE_antisymm hab hba
  exact Std.LawfulEqCmp.eq_of_compare heq

/-- The order in which counts are met makes no difference to the vocabulary that is built. -/
theorem buildWalked_eq_build (h : listing.Perm counts.entries) (cutoff : Nat) :
    buildWalked listing cutoff = build counts cutoff := by
  have hnodup := nodup_unknown_knownTokens counts cutoff
  have hempty : unknownOnly.Consistent := consistent_ofTokens (List.pairwise_singleton _ _)
  rw [buildWalked, keptTokens_eq_knownTokens h]
  exact (hempty.foldl_push hnodup).eq_of_tokens (consistent_build counts cutoff)
    (tokens_foldl_push _ _)

/-! ### Ids of 32 bits -/

/-- The vocabulary with one more token, where an id is a word of 32 bits. -/
def pushWord (vocabulary : Vocabulary) (token : String) : Vocabulary where
  ids := vocabulary.ids.insert token (vocabulary.size % 2 ^ 32)
  tokens := vocabulary.tokens ++ [token]

/-- The vocabulary of counts that are met in the order of `listing`, with ids of 32 bits. -/
def buildWords (listing : List (String × Nat)) (cutoff : Nat) : Vocabulary :=
  (keptTokens listing cutoff).foldl pushWord unknownOnly

/-- As long as there are no more tokens than words, no id comes round. -/
theorem foldl_pushWord_eq_foldl_push {list : List String} {vocabulary : Vocabulary}
    (h : vocabulary.size + list.length ≤ 2 ^ 32) :
    list.foldl pushWord vocabulary = list.foldl push vocabulary := by
  induction list generalizing vocabulary with
  | nil => rfl
  | cons token rest ih =>
    rw [List.length_cons] at h
    have hword : vocabulary.pushWord token = vocabulary.push token := by
      rw [pushWord, push, Nat.mod_eq_of_lt (by omega)]
    have hsize : (vocabulary.push token).size = vocabulary.size + 1 := List.length_append
    rw [List.foldl_cons, List.foldl_cons, hword]
    exact ih (by omega)

/-- A vocabulary of at most `2 ^ 32` tokens is the same with ids of 32 bits. -/
theorem buildWords_eq_build (h : listing.Perm counts.entries) {cutoff : Nat}
    (hsize : (build counts cutoff).size ≤ 2 ^ 32) :
    buildWords listing cutoff = build counts cutoff := by
  have hfits : unknownOnly.size + (keptTokens listing cutoff).length ≤ 2 ^ 32 := by
    rw [keptTokens_eq_knownTokens h, Nat.add_comm]
    exact hsize
  rw [buildWords, foldl_pushWord_eq_foldl_push hfits]
  exact buildWalked_eq_build h cutoff

/-! ### The numbering -/

/-- **A vocabulary is a dense numbering of the tokens it knows.** For all counts and every cutoff it
lists the symbol for unknown tokens and behind it, in strictly ascending order and so each once, the
tokens other than that symbol that were counted more often than the cutoff. The ids are the
positions in this list: each has a token, which has that id, and no id is as large as the list. The
listed tokens without the symbol are those that are known, each the token of its id, and every other
text has the id of the symbol. In which order the counts are met makes no difference. Words of 32
bits are enough for the ids of up to `2 ^ 32` tokens. -/
theorem numbering_of_counts (counts : Tally String) (cutoff : Nat) :
    let vocabulary := build counts cutoff
    ∃ known : List String,
      vocabulary.tokens = unknownSymbol :: known ∧
      (∀ token, token ∈ known ↔ token ≠ unknownSymbol ∧ cutoff < counts.count token) ∧
      known.Pairwise (· < ·) ∧ known.Nodup ∧
      (∀ id < vocabulary.size,
        ∃ token, vocabulary.token? id = some token ∧ vocabulary.idOf token = id) ∧
      (∀ text, vocabulary.idOf text < vocabulary.size) ∧
      (∀ text, vocabulary.isUnknown text = false ↔ text ∈ known) ∧
      (∀ text ∈ known, vocabulary.token? (vocabulary.idOf text) = some text) ∧
      (∀ text, text ∉ known → vocabulary.idOf text = unknownId) ∧
      ∀ listing : List (String × Nat), listing.Perm counts.entries →
        buildWalked listing cutoff = vocabulary ∧
        (vocabulary.size ≤ 2 ^ 32 → buildWords listing cutoff = vocabulary) := by
  intro vocabulary
  have hvocabulary : vocabulary.Consistent := consistent_build counts cutoff
  -- To have an id of one's own is to be kept; both ways of looking up follow from that.
  have hknown : ∀ text, vocabulary.idOf text ≠ unknownId ↔ text ∈ knownTokens counts cutoff := by
    intro text
    rw [hvocabulary.idOf_ne_unknownId_iff]
    show text ∈ unknownSymbol :: knownTokens counts cutoff ∧ text ≠ unknownSymbol ↔ _
    rw [List.mem_cons]
    constructor
    · exact fun ⟨hmem, hne⟩ => hmem.resolve_left hne
    · exact fun hmem => ⟨.inr hmem, (mem_knownTokens_iff.1 hmem).2⟩
  refine ⟨knownTokens counts cutoff, rfl, ?_, ?_, nodup_knownTokens counts cutoff, ?_, ?_, ?_, ?_,
    ?_, fun listing hlisting =>
      ⟨buildWalked_eq_build hlisting cutoff, buildWords_eq_build hlisting⟩⟩
  · intro token
    rw [mem_knownTokens_iff, and_comm]
  · exact (SortedMap.pairwise_keys _).imp fun hlt => compareOfLessAndEq_eq_lt.1 hlt
  · intro id hid
    obtain ⟨token, htoken⟩ : ∃ token, vocabulary.token? id = some token :=
      ⟨_, List.getElem?_eq_getElem hid⟩
    exact ⟨token, htoken, hvocabulary.idOf_eq htoken⟩
  · exact idOf_ofTokens_lt _
  · intro text
    rw [isUnknown, decide_eq_false_iff_not]
    exact hknown text
  · intro text hmem
    exact (hvocabulary.ids_iff _ _).1 (get?_of_idOf_ne ((hknown text).2 hmem))
  · intro text hmem
    exact not_not.1 fun hne => hmem ((hknown text).1 hne)

/-- Counts met backwards. The symbol itself was counted, and so was the empty text; `a` was counted
exactly as often as the cutoff. -/
theorem numbering_of_counts_edges :
    let counts : Tally String := .ofList [("b", 3), (unknownSymbol, 9), ("", 2), ("a", 1)]
    let vocabulary := build counts 1
    vocabulary.tokens = [unknownSymbol, "", "b"] ∧
      vocabulary.token? (vocabulary.idOf "b") = some "b" ∧
      vocabulary.idOf "a" = unknownId ∧ vocabulary.idOf unknownSymbol = unknownId ∧
      counts.entries.reverse.Perm counts.entries ∧
      buildWalked counts.entries.reverse 1 = vocabulary ∧
      buildWords counts.entries.reverse 1 = vocabulary := by
  intro counts vocabulary
  -- The symbol is not counted, the empty text is, and `a` is not above the cutoff.
  have htokens : vocabulary.tokens = [unknownSymbol, "", "b"] := by decide +kernel
  obtain ⟨known, hlist, -, -, -, -, -, -, hknown, hunknown, hwalked⟩ := numbering_of_counts counts 1
  obtain rfl : ["", "b"] = known := (List.cons.inj (htokens.symm.trans hlist)).2
  have hperm := List.reverse_perm counts.entries
  obtain ⟨hanyOrder, hwords⟩ := hwalked _ hperm
  have hsize : vocabulary.size ≤ 2 ^ 32 := by
    rw [size, htokens]
    decide
  exact ⟨htokens, hknown "b" (by decide), hunknown "a" (by decide),
    hunknown unknownSymbol (by decide), hperm, hanyOrder, hwords hsize⟩

end NaturalNames.Vocabulary
