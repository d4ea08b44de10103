import Mathlib.Data.List.Basic
import NaturalNames.Vocabulary
import NaturalNames.Proofs.Ordered.Map

/-!
# `NaturalNames.Proofs.Vocabulary`: ids are ranks

A vocabulary is built through a map from tokens to positions. `idOf_build` says what comes of it
without that map: a token that is known has its rank among the known tokens, counted from one, and
every other token, the symbol for unknown ones included, has id zero. Looked at from either side it
is one numbering (`Consistent`), in which a token with an id of its own is one that is listed and is
not the symbol (`Consistent.idOf_ne_unknownId_iff`).
-/

set_option autoImplicit false

namespace NaturalNames.Vocabulary

/-- Both sides of the vocabulary say the same, and what they say of the unknown symbol is its id. -/
structure Consistent (vocabulary : Vocabulary) : Prop where
  unknown : vocabulary.ids.get? unknownSymbol = some unknownId
  ids_iff : ∀ token id,
    vocabulary.ids.get? token = some id ↔ vocabulary.token? id = some token

/-- The unknown symbol stands in front. -/
theorem Consistent.token?_unknownId {vocabulary : Vocabulary} (h : vocabulary.Consistent) :
    vocabulary.token? unknownId = some unknownSymbol := (h.ids_iff _ _).1 h.unknown

/-- There is one token at least, the unknown symbol. -/
theorem Consistent.size_pos {vocabulary : Vocabulary} (h : vocabulary.Consistent) :
    0 < vocabulary.size := by
  obtain ⟨hlt, -⟩ := List.getElem?_eq_some_iff.1 h.token?_unknownId
  exact Nat.zero_lt_of_lt hlt

/-- An id of its own was found in the map. -/
theorem get?_of_idOf_ne {vocabulary : Vocabulary} {token : String}
    (h : vocabulary.idOf token ≠ unknownId) :
    vocabulary.ids.get? token = some (vocabulary.idOf token) := by
  rw [idOf] at h ⊢
  cases hget : vocabulary.ids.get? token with
  | none =>
    rw [hget] at h
    exact absurd rfl h
  | some id => rfl

/-- A token has the id that it is the token of. -/
theorem Consistent.idOf_eq {vocabulary : Vocabulary} (h : vocabulary.Consistent) {token : String}
    {id : TokenId} (htoken : vocabulary.token? id = some token) : vocabulary.idOf token = id := by
  rw [idOf, (h.ids_iff _ _).2 htoken]
  rfl

/-- Every text has the id of a listed token, if only that of the unknown symbol. -/
theorem Consistent.idOf_lt {vocabulary : Vocabulary} (h : vocabulary.Consistent) (token : String) :
    vocabulary.idOf token < vocabulary.size := by
  rw [idOf]
  cases hget : vocabulary.ids.get? token with
  | none => exact h.size_pos
  | some id =>
    obtain ⟨hlt, -⟩ := List.getElem?_eq_some_iff.1 ((h.ids_iff _ _).1 hget)
    exact hlt

/-- The tokens with an id of their own are those that are listed, without the unknown symbol. -/
theorem Consistent.idOf_ne_unknownId_iff {vocabulary : Vocabulary} (h : vocabulary.Consistent)
    {token : String} :
    vocabulary.idOf token ≠ unknownId ↔ token ∈ vocabulary.tokens ∧ token ≠ unknownSymbol := by
  have hunknown := h.token?_unknownId
  constructor
  · intro hne
    have htoken := (h.ids_iff _ _).1 (get?_of_idOf_ne hne)
    refine ⟨List.mem_of_getElem? htoken, ?_⟩
    rintro rfl
    exact hne (h.idOf_eq hunknown)
  · -- Only the symbol itself has the id of unknown texts.
    rintro ⟨hmem, hne⟩ heq
    obtain ⟨id, hid⟩ := List.mem_iff_getElem?.1 hmem
    have hzero : id = unknownId := (h.idOf_eq hid).symm.trans heq
    rw [token?, ← hzero, hid] at hunknown
    exact hne (Option.some.inj hunknown)

/-- Distinct tokens are distinct keys, so no position overwrites another one. -/
theorem consistent_ofTokens {known : List String} (h : (unknownSymbol :: known).Nodup) :
    (ofTokens known).Consistent := by
  -- Distinct tokens make distinct keys, so each keeps the id of its place in the list.
  have hdistinct : Assoc.DistinctKeys (unknownSymbol :: known).zipIdx := by
    have hkeys : ((unknownSymbol :: known).zipIdx.map Prod.fst).Nodup := by
      rw [List.zipIdx_map_fst]
      exact h
    exact List.pairwise_map.1 hkeys
  have hids : ∀ token id, (ofTokens known).ids.get? token = some id
      ↔ (unknownSymbol :: known)[id]? = some token := by
    intro token id
    rw [← List.mk_mem_zipIdx_iff_getElem?]
    constructor
    · exact fun hget => SortedMap.mem_of_mem_ofList (SortedMap.get?_eq_some_iff.1 hget)
    · exact SortedMap.get?_ofList_of_mem hdistinct
  exact ⟨(hids _ _).2 rfl, hids⟩

/-- In a list of distinct tokens behind the unknown symbol an id is a position. -/
theorem idOf_ofTokens {known : List String} (h : (unknownSymbol :: known).Nodup)
    (token : String) :
    (ofTokens known).idOf token = if token ∈ known then known.idxOf token + 1 else unknownId := by
  have hids := (consistent_ofTokens h).ids_iff token
  by_cases hknown : token ∈ known
  · have hposition : (unknownSymbol :: known)[known.idxOf token + 1]? = some token := by
      rw [List.getElem?_cons_succ, List.getElem?_eq_getElem (List.idxOf_lt_length_of_mem hknown),
        List.getElem_idxOf]
    rw [idOf, (hids _).2 hposition, if_pos hknown, Option.getD_some]
  · rw [if_neg hknown, idOf]
    cases hget : (ofTokens known).ids.get? token with
    | none => rfl
    | some id =>
      -- Only the symbol in front is listed and not known.
      cases id with
      | zero => rfl
      | succ id =>
        have hmem : known[id]? = some token := (hids _).1 hget
        exact absurd (List.mem_of_getElem? hmem) hknown

/-- The map of ids holds tokens and ids of the vocabulary only. -/
theorem mem_ids_ofTokens {known : List String} {e : String × TokenId}
    (h : e ∈ (ofTokens known).ids.entries) :
    e.1 ∈ (ofTokens known).tokens ∧ e.2 < (ofTokens known).size := by
  have hmem : e ∈ (unknownSymbol :: known).zipIdx := SortedMap.mem_of_mem_ofList h
  obtain ⟨hlt, hget⟩ := List.mem_zipIdx' hmem
  refine ⟨?_, hlt⟩
  rw [hget]
  exact List.getElem_mem _

/-- Every text has the id of a listed token, even if tokens were listed twice. -/
theorem idOf_ofTokens_lt (known : List String) (token : String) :
    (ofTokens known).idOf token < (ofTokens known).size := by
  rw [idOf]
  cases hget : (ofTokens known).ids.get? token with
  | none => exact Nat.succ_pos _
  | some id => exact (mem_ids_ofTokens (SortedMap.get?_eq_some_iff.1 hget)).2

/-- The tokens that a vocabulary knows, in ascending order. -/
def knownTokens (counts : Tally String) (cutoff : Nat) : List String :=
  (counts.filter fun token n => cutoff < n && token ≠ unknownSymbol).keys

/-- The known tokens are those counted more often than the cutoff, without the unknown symbol. -/
theorem mem_knownTokens_iff {counts : Tally String} {cutoff : Nat} {token : String} :
    token ∈ knownTokens counts cutoff ↔
      cutoff < counts.count token ∧ token ≠ unknownSymbol := by
  rw [knownTokens, SortedMap.keys, List.mem_map]
  constructor
  · rintro ⟨e, he, rfl⟩
    obtain ⟨hmem, hp⟩ := List.mem_filter.1 he
    have hget : counts.get? e.1 = some e.2 := SortedMap.get?_eq_some_iff.2 hmem
    simpa [Tally.count, hget] using hp
  · rintro ⟨hcutoff, hne⟩
    -- A token that is not listed was counted zero times, which no cutoff is below.
    cases hget : counts.get? token with
    | none =>
      rw [Tally.count, hget] at hcutoff
      exact absurd hcutoff (Nat.not_lt_zero _)
    | some n =>
      rw [Tally.count, hget, Option.getD_some] at hcutoff
      refine ⟨(token, n), List.mem_filter.2 ⟨SortedMap.get?_eq_some_iff.1 hget, ?_⟩, rfl⟩
      simp [hcutoff, hne]

/-- Each known token stands once in the list. -/
theorem nodup_knownTokens (counts : Tally String) (cutoff : Nat) :
    (knownTokens counts cutoff).Nodup :=
  SortedMap.nodup_keys _

/-- The unknown symbol is never known, so it stands once in a vocabulary: in front. -/
theorem nodup_unknown_knownTokens (counts : Tally String) (cutoff : Nat) :
    (unknownSymbol :: knownTokens counts cutoff).Nodup :=
  List.nodup_cons.2 ⟨fun hmem => (mem_knownTokens_iff.1 hmem).2 rfl,
    nodup_knownTokens counts cutoff⟩

/-- Both sides of a vocabulary that is built say the same. -/
theorem consistent_build (counts : Tally String) (cutoff : Nat) :
    (build counts cutoff).Consistent :=
  consistent_ofTokens (nodup_unknown_knownTokens counts cutoff)

/-- In an ascending list the position of an element is the number of lesser elements. -/
private theorem idxOf_eq_countP_lt {texts : List String}
    (h : texts.Pairwise fun a b => compare a b = .lt) {text : String} (hmem : text ∈ texts) :
    texts.idxOf text = texts.countP fun other => other < text := by
  induction texts with
  | nil => cases hmem
  | cons head rest ih =>
    obtain ⟨hhead, hrest⟩ := List.pairwise_cons.1 h
    rcases List.mem_cons.1 hmem with rfl | hmem
    · -- The element in front is below all others.
      have hzero : (text :: rest).countP (fun other => other < text) = 0 := by
        rw [List.countP_eq_zero]
        intro other hother
        rw [decide_eq_true_eq]
        rcases List.mem_cons.1 hother with rfl | hother
        · exact String.lt_irrefl other
        · exact String.lt_asymm (compareOfLessAndEq_eq_lt.1 (hhead other hother))
      rw [List.idxOf_cons_self, hzero]
    · have hlt : head < text := compareOfLessAndEq_eq_lt.1 (hhead text hmem)
      have hne : head ≠ text := fun heq => String.lt_irrefl text (heq ▸ hlt)
      rw [List.idxOf_cons_ne _ hne, ih hrest hmem, List.countP_cons_of_pos (by simpa using hlt)]

/-- The id of a known token is its rank among the known tokens, counted from one. No other token
has an id of its own. -/
theorem idOf_build (counts : Tally String) (cutoff : Nat) (token : String) :
    (build counts cutoff).idOf token =
      if cutoff < counts.count token ∧ token ≠ unknownSymbol then
        ((knownTokens counts cutoff).countP fun other => other < token) + 1
      else unknownId := by
  have hnodup := nodup_unknown_knownTokens counts cutoff
  show (ofTokens (knownTokens counts cutoff)).idOf token = _
  rw [idOf_ofTokens hnodup]
  by_cases hknown : token ∈ knownTokens counts cutoff
  · have hrank := idxOf_eq_countP_lt (SortedMap.pairwise_keys _) hknown
    rw [if_pos hknown, if_pos (mem_knownTokens_iff.1 hknown)]
    exact congrArg Nat.succ hrank
  · rw [if_neg hknown, if_neg (mt mem_knownTokens_iff.2 hknown)]

end NaturalNames.Vocabulary
