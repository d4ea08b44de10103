import NaturalNames.Proofs.Backoff.WellFormed
import NaturalNames.Proofs.CountTrie.Write
import NaturalNames.Proofs.Training.PrefixCount

/-!
# `NaturalNames.Proofs.Backoff.Blob`: reading a model undoes writing it

`bytesOf` writes a model with its maps listed in some order: the ids of the vocabulary, and the
children at every node of the trie. Whatever the order, reading gives the model back
(`reads_bytesOf`), and since a reader shows where its value ends, bytes behind the model do not
matter and a part of the bytes is not enough.

A model is written in numbers of 32 and 64 bits, so its numbers have to fit (`Representable`).
-/

set_option autoImplicit false

namespace NaturalNames.BackoffModel

open Training Wire Wire.Reader

/-- The models of numbers and texts that their widths hold. -/
structure Representable (model : BackoffModel) : Prop where
  order_lt : model.order < 2 ^ 64
  ids_length_lt : model.vocabulary.ids.entries.length < 2 ^ 64
  ids_lt : ∀ e ∈ model.vocabulary.ids.entries, e.1.utf8ByteSize < 2 ^ 64 ∧ e.2 < 2 ^ 32
  tokens_length_lt : model.vocabulary.tokens.length < 2 ^ 64
  tokens_lt : ∀ token ∈ model.vocabulary.tokens, token.utf8ByteSize < 2 ^ 64
  counts : model.counts.Representable

/-- A model from training is representable if its order, the size of its vocabulary, its texts and
the number of windows are: all other numbers of it are no greater. -/
theorem WellFormed.representable {model : BackoffModel} (h : model.WellFormed)
    (horder : model.order < 2 ^ 64) (hsize : model.vocabulary.size ≤ 2 ^ 32)
    (htokens : ∀ token ∈ model.vocabulary.tokens, token.utf8ByteSize < 2 ^ 64)
    (htotal : model.counts.total < 2 ^ 64) : model.Representable := by
  -- The map of ids has no more entries than there are tokens, as its keys are distinct tokens.
  have hsubset : model.vocabulary.ids.keys ⊆ model.vocabulary.tokens := by
    intro token htoken
    obtain ⟨e, he, rfl⟩ := List.mem_map.1 htoken
    exact (h.vocabulary_ids e he).1
  have hids : model.vocabulary.ids.keys.length ≤ model.vocabulary.tokens.length :=
    (SortedMap.nodup_keys _).length_le_of_subset hsubset
  rw [SortedMap.keys, List.length_map] at hids
  have htokensLength : model.vocabulary.tokens.length < 2 ^ 64 :=
    Nat.lt_of_le_of_lt hsize (by decide)
  exact {
    order_lt := horder
    ids_length_lt := Nat.lt_of_le_of_lt hids htokensLength
    ids_lt := fun e he => ⟨htokens e.1 (h.vocabulary_ids e he).1,
      Nat.lt_of_lt_of_le (h.vocabulary_ids e he).2 hsize⟩
    tokens_length_lt := htokensLength
    tokens_lt := htokens
    counts := h.counts.representable htotal (h.ids.mono hsize) }

/-! ### Writing and reading -/

section

variable {model : BackoffModel}

/-- A model is read back from every listing of its maps. -/
theorem reads_bytesOf (h : model.Representable) {ids : List (String × TokenId)}
    (hids : ids.Perm model.vocabulary.ids.entries) {counts : CountTrie}
    (hcounts : CountTrie.Listing model.counts counts) {depth : Nat}
    (hdepth : counts.write.length ≤ depth) :
    Reads (read depth)
      (bytesOf model.order model.factor ids model.vocabulary.tokens counts) model := by
  -- Field by field, in the order in which they are written. Each is read whatever follows it.
  have hentry : ∀ e ∈ ids,
      Reads (pair text word32) (writeText e.1 ++ writeVarint e.2) e := by
    intro e he
    have hlt := h.ids_lt e (hids.mem_iff.1 he)
    exact reads_pair (reads_text hlt.1) (reads_varint (by decide) hlt.2)
  have hlength : ids.length < 2 ^ 64 := hids.length_eq ▸ h.ids_length_lt
  have hmodel : BackoffModel.mk model.order model.factor
      ⟨.ofList ids, model.vocabulary.tokens⟩ model.counts = model := by
    rw [SortedMap.ofList_perm_entries hids]
  have htoken : ∀ token ∈ model.vocabulary.tokens, Reads text (writeText token) token := by
    intro token htoken
    exact reads_text (h.tokens_lt token htoken)
  rw [bytesOf, List.append_assoc, List.append_assoc, List.append_assoc]
  refine (reads_varint (by decide) h.order_lt).bind ?_
  refine (reads_float model.factor).bind ?_
  refine (reads_writeList hentry hlength).bind ?_
  refine (reads_writeList htoken h.tokens_length_lt).bind ?_
  exact (hcounts.reads h.counts hdepth).bind_pure hmodel

/-- All listings take up equally many bytes. -/
theorem length_bytesOf {ids : List (String × TokenId)}
    (hids : ids.Perm model.vocabulary.ids.entries) {counts : CountTrie}
    (hcounts : CountTrie.Listing model.counts counts) :
    (bytesOf model.order model.factor ids model.vocabulary.tokens counts).length
      = model.toBytes.length := by
  have hentries : ∀ write : String × TokenId → List UInt8, (writeList write ids).length
      = (writeList write model.vocabulary.ids.entries).length := by
    intro write
    rw [writeList, writeList, List.length_append, List.length_append, hids.length_eq,
      List.length_flatMap, List.length_flatMap, (hids.map _).sum_eq]
  rw [toBytes, bytesOf, bytesOf]
  simp only [List.length_append, hentries, hcounts.length_write]

/-- Every model that is read is representable. -/
theorem delimited_read (depth : Nat) : Delimited (read depth) Representable := by
  refine (delimited_varint 64).bind ?_
  intro order horder
  refine delimited_float.bind ?_
  intro factor _
  refine (delimited_text.pair (delimited_varint 32)).list.bind ?_
  intro ids hids
  refine delimited_text.list.bind ?_
  intro tokens htokens
  refine (CountTrie.delimited_read depth).bind ?_
  intro counts hcounts
  -- A map may have fewer entries than were written, if a key comes twice, but no others.
  exact .pure {
    order_lt := horder
    ids_length_lt := Nat.lt_of_le_of_lt (SortedMap.length_ofList_le ids) hids.1
    ids_lt := fun e he => hids.2 e (SortedMap.mem_of_mem_ofList he)
    tokens_length_lt := htokens.1
    tokens_lt := htokens.2
    counts := hcounts }

/-- Reading to a greater depth reads the same where the lesser depth is enough. -/
theorem refines_read {depth depth' : Nat} (h : depth ≤ depth') :
    Refines (read depth) (read depth') := by
  -- The depth is for the trie alone. The four fields in front of it are read as they were.
  refine (Refines.refl word64).bind ?_
  intro order
  refine (Refines.refl float).bind ?_
  intro factor
  refine (Refines.refl _).bind ?_
  intro ids
  refine (Refines.refl _).bind ?_
  intro tokens
  refine (CountTrie.refines_read h).bind ?_
  intro counts
  exact Refines.refl _

end

/-! ### Blobs -/

section

variable {model : BackoffModel} {blob : List UInt8}

/-- Bytes that are read as a model at every depth that they need. -/
def IsBlob (blob : List UInt8) (model : BackoffModel) : Prop :=
  ∀ depth, blob.length ≤ depth → Reads (read depth) blob model

/-- Every listing of a model is a blob of it. -/
theorem isBlob_bytesOf (h : model.Representable) {ids : List (String × TokenId)}
    (hids : ids.Perm model.vocabulary.ids.entries) {counts : CountTrie}
    (hcounts : CountTrie.Listing model.counts counts) :
    IsBlob (bytesOf model.order model.factor ids model.vocabulary.tokens counts) model := by
  intro depth hdepth
  refine reads_bytesOf h hids hcounts ?_
  rw [bytesOf, List.length_append] at hdepth
  omega

/-- Bytes behind a model do not matter. -/
theorem IsBlob.ofBytes_append (h : IsBlob blob model) (extra : List UInt8) :
    ofBytes (blob ++ extra) = .ok model := by
  have hlength : blob.length ≤ (blob ++ extra).length := by
    rw [List.length_append]
    omega
  rw [ofBytes, h _ hlength extra]

/-- A part of a blob is not enough. If it were, the reader would take all of the blob for the same
model, and leave something over. -/
theorem IsBlob.ofBytes_prefix (h : IsBlob blob model) {front : List UInt8} (hfront : front <+: blob)
    (hne : front ≠ blob) : ofBytes front = .error .malformedModel := by
  obtain ⟨back, rfl⟩ := hfront
  rw [ofBytes]
  cases hrun : (read front.length).run front with
  | none => rfl
  | some found =>
    obtain ⟨model', rest⟩ := found
    -- The reader that was given less succeeds on the whole blob, too, and with the same result. But
    -- there it takes everything, so nothing was cut off.
    obtain ⟨-, taken, htaken, hreads⟩ := delimited_read _ _ _ _ hrun
    have hdepth : front.length ≤ (front ++ back).length := by
      rw [List.length_append]
      omega
    have hless := hreads.refine (refines_read hdepth) (rest ++ back)
    have hall := h _ (Nat.le_refl _) []
    rw [← List.append_assoc, ← htaken] at hless
    rw [List.append_nil, hless, Option.some.injEq, Prod.mk.injEq] at hall
    have hback : back = [] := (List.append_eq_nil_iff.1 hall.2).2
    rw [hback, List.append_nil] at hne
    exact absurd rfl hne

/-- What is read is a model that can be written. -/
theorem representable_of_ofBytes (h : ofBytes blob = .ok model) : model.Representable := by
  rw [ofBytes] at h
  cases hrun : (read blob.length).run blob with
  | none =>
    rw [hrun] at h
    cases h
  | some found =>
    rw [hrun] at h
    cases h
    exact (delimited_read _ _ _ _ hrun).1

end

/-- A model whose factor is NaN differs from itself, and no other does. -/
theorem beq_self (model : BackoffModel) : (model == model) = !model.factor.isNaN := by
  show (model.order == model.order && (model.factor == model.factor
    && (model.vocabulary == model.vocabulary && model.counts == model.counts))) = _
  rw [Number.beq_self, beq_self_eq_true, beq_self_eq_true, beq_self_eq_true]
  rw [Bool.and_self, Bool.and_true, Bool.true_and]

/-- **Reading a model undoes writing it.** Take a model of numbers and texts that fit, and list its
ids and the children of every node of its trie in any order. The bytes are read as the model, also
with other bytes behind them, and no smaller part of them is read at all. How many they are does
not depend on the order. The model that is read equals the one written, if its factor is not NaN.

Every model that is read fits. So does every model from training if its order, its vocabulary, the
texts in there and the number of windows do. -/
theorem ofBytes_bytesOf :
    (∀ model : BackoffModel, model.Representable →
      ∀ ids : List (String × TokenId), ids.Perm model.vocabulary.ids.entries →
      ∀ counts : CountTrie, CountTrie.Listing model.counts counts →
      ∀ blob, blob = bytesOf model.order model.factor ids model.vocabulary.tokens counts →
        ofBytes blob = .ok model ∧ (model == model) = !model.factor.isNaN ∧
        blob.length = model.toBytes.length ∧
        (∀ extra, ofBytes (blob ++ extra) = .ok model) ∧
        ∀ front, front <+: blob → front ≠ blob → ofBytes front = .error .malformedModel) ∧
    (∀ bytes model, ofBytes bytes = .ok model → model.Representable) ∧
    (∀ (config : ModelConfig) (model : BackoffModel), Obtained config model →
      config.order < 2 ^ 64 → model.vocabulary.size ≤ 2 ^ 32 →
      (∀ token ∈ model.vocabulary.tokens, token.utf8ByteSize < 2 ^ 64) →
      model.counts.total < 2 ^ 64 → model.Representable) := by
  refine ⟨?_, fun bytes model => representable_of_ofBytes, ?_⟩
  · rintro model hmodel ids hids counts hcounts blob rfl
    have hblob := isBlob_bytesOf hmodel hids hcounts
    have hwhole := hblob.ofBytes_append []
    rw [List.append_nil] at hwhole
    exact ⟨hwhole, beq_self model, length_bytesOf hids hcounts, hblob.ofBytes_append,
      fun front => hblob.ofBytes_prefix⟩
  · intro config model hobtained horder hsize htokens htotal
    exact hobtained.wellFormed.representable (hobtained.order_eq ▸ horder) hsize htokens htotal

/-- The model of the letters, its ids and the children of its root listed backwards. The last byte
is missed if it is taken away; one more byte does no harm. -/
theorem ofBytes_bytesOf_pair :
    ∃ (model : BackoffModel) (ids : List (String × TokenId)) (counts : CountTrie)
      (blob : List UInt8), Obtained pairConfig model ∧ ids ≠ model.vocabulary.ids.entries ∧
      counts ≠ model.counts ∧
      blob = bytesOf model.order model.factor ids model.vocabulary.tokens counts ∧
      ofBytes blob = .ok model ∧ blob.length = model.toBytes.length ∧
      ofBytes (blob ++ [7]) = .ok model ∧ ofBytes blob.dropLast = .error .malformedModel := by
  obtain ⟨hround, -, hfits⟩ := ofBytes_bytesOf
  let model := (inOneGo letters pairConfig pairUnits).model
  have hobtained : Obtained pairConfig model :=
    .trained (train_eq_inOneGo (.inTurn 4) letters (by decide) (by decide))
  have hmodel : model.Representable := hfits _ _ hobtained (by decide) (by decide +kernel)
    (by decide +kernel) (by decide +kernel)
  -- Both maps are listed backwards, so that the bytes are not those of `toBytes`.
  obtain ⟨hread, -, hlength, hextra, hfront⟩ := hround model hmodel
    model.vocabulary.ids.entries.reverse (List.reverse_perm _)
    (.node model.counts.total model.counts.children.reverse) (.of_perm (List.reverse_perm _)) _ rfl
  refine ⟨model, _, _, _, hobtained, by decide +kernel, by decide +kernel, rfl, hread, hlength,
    hextra [7], hfront _ (List.dropLast_prefix _) ?_⟩
  decide +kernel

end NaturalNames.BackoffModel
