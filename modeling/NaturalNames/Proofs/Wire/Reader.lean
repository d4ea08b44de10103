import Mathlib.Data.List.Forall2
import NaturalNames.Proofs.Number.Bits
import NaturalNames.Proofs.Wire.Varint
import NaturalNames.Wire.Reader

/-!
# `NaturalNames.Proofs.Wire.Reader`: readers and what they take

Two properties of readers hold of every reader that is put together from readers with them:

* `Reads reader bytes value`: the reader takes exactly these bytes for the value, whatever comes
  behind them. With the bytes of a writer this is the round trip, and values can be written one
  behind the other.
* `Delimited reader P`: whenever the reader succeeds, it has taken bytes that `Reads` speaks of,
  and the value satisfies `P`. So a reader never looks at bytes behind its value, and if it
  succeeds on less than it was meant to read, it succeeds on all of it and leaves something over.

`Refines reader reader'` compares two readers: where the first one succeeds, the second does the
same.
-/

set_option autoImplicit false

namespace NaturalNames.Wire.Reader

variable {α β : Type}

/-- The reader takes exactly these bytes for the value, whatever comes behind them. -/
def Reads (reader : Reader α) (bytes : List UInt8) (value : α) : Prop :=
  ∀ rest, reader.run (bytes ++ rest) = some (value, rest)

/-- A value that the reader finds satisfies `P`, and its bytes say where it ends. -/
def Delimited (reader : Reader α) (P : α → Prop) : Prop :=
  ∀ input value rest, reader.run input = some (value, rest) →
    P value ∧ ∃ front, input = front ++ rest ∧ Reads reader front value

/-! ### One after the other -/

/-- A value that is given without reading takes no bytes. -/
theorem Reads.pure (value : α) : Reads (Pure.pure value) [] value := fun _ => rfl

/-- What is read in two steps was written in two parts. -/
theorem Reads.bind {reader : Reader α} {next : α → Reader β} {front back : List UInt8} {a : α}
    {b : β} (hfront : Reads reader front a) (hback : Reads (next a) back b) :
    Reads (reader >>= next) (front ++ back) b := by
  intro rest
  rw [StateT.run_bind, List.append_assoc, hfront]
  exact hback rest

/-- A value that is made of the one read. -/
theorem Reads.bind_pure {reader : Reader α} {bytes : List UInt8} {a : α} {f : α → β} {b : β}
    (h : Reads reader bytes a) (hf : f a = b) :
    Reads (reader >>= fun x => Pure.pure (f x)) bytes b := by
  have hreads : Reads (reader >>= fun x => Pure.pure (f x)) (bytes ++ []) b :=
    h.bind (hf ▸ Reads.pure (f a))
  rwa [List.append_nil] at hreads

/-- Nothing is taken for a value that is given without reading. -/
theorem Delimited.pure {P : α → Prop} {value : α} (h : P value) :
    Delimited (Pure.pure value) P := by
  intro input value' rest hrun
  cases hrun
  exact ⟨h, [], rfl, Reads.pure value⟩

/-- What is known of the values that are read may be weakened. -/
theorem Delimited.mono {reader : Reader α} {P Q : α → Prop} (h : Delimited reader P)
    (hPQ : ∀ value, P value → Q value) : Delimited reader Q := by
  intro input value rest hrun
  obtain ⟨hP, hfront⟩ := h input value rest hrun
  exact ⟨hPQ value hP, hfront⟩

/-- A reader that always fails takes nothing, and gives nothing of which anything could be asked. -/
theorem Delimited.failure {P : α → Prop} : Delimited failure P := by
  intro input value rest hrun
  cases hrun

/-- If both steps of a reader stop where their part ends, so does the reader. -/
theorem Delimited.bind {reader : Reader α} {next : α → Reader β} {P : α → Prop} {Q : β → Prop}
    (hreader : Delimited reader P) (hnext : ∀ a, P a → Delimited (next a) Q) :
    Delimited (reader >>= next) Q := by
  intro input b rest hrun
  rw [StateT.run_bind, Option.bind_eq_bind, Option.bind_eq_some_iff] at hrun
  obtain ⟨⟨a, middle⟩, ha, hb⟩ := hrun
  obtain ⟨hPa, front, rfl, hfront⟩ := hreader _ _ _ ha
  obtain ⟨hQb, back, rfl, hback⟩ := hnext a hPa _ _ _ hb
  exact ⟨hQb, front ++ back, (List.append_assoc ..).symm, hfront.bind hback⟩

/-! ### Numbers -/

/-- A number that fits is read as it was written. -/
theorem reads_varint {bits n : Nat} (hbits : 0 < bits) (h : n < 2 ^ bits) :
    Reads (readVarint bits) (writeVarint n) n := readVarint_writeVarint hbits h

/-- A number that is read fits, and what stands behind it is left. -/
theorem delimited_varint (bits : Nat) : Delimited (readVarint bits) (· < 2 ^ bits) := by
  intro input n rest hrun
  exact exists_front_of_readVarint hrun

/-- As many bytes as were written are taken as they are. -/
theorem reads_bytes (taken : List UInt8) : Reads (bytes taken.length) taken taken := by
  intro rest
  show (if taken.length ≤ (taken ++ rest).length then _ else none) = _
  rw [if_pos (by rw [List.length_append]; omega), List.take_left, List.drop_left]

/-- Exactly the number of bytes that was asked for is taken. -/
theorem delimited_bytes (n : Nat) : Delimited (bytes n) (·.length = n) := by
  intro input taken rest hrun
  -- Too short an input is an error, and otherwise the first `n` bytes are taken.
  have hle : n ≤ input.length := by
    by_contra hlt
    have hnone : (bytes n).run input = none := if_neg hlt
    rw [hnone] at hrun
    cases hrun
  have hsome : (bytes n).run input = some (input.take n, input.drop n) := if_pos hle
  rw [hsome] at hrun
  cases hrun
  have hlength : (input.take n).length = n := by rw [List.length_take]; omega
  have hreads := reads_bytes (input.take n)
  rw [hlength] at hreads
  exact ⟨hlength, input.take n, (List.take_append_drop n input).symm, hreads⟩

/-- A number is written in as many bytes as were asked for. -/
theorem length_writeLittleEndian (n value : Nat) : (writeLittleEndian n value).length = n := by
  induction n generalizing value with
  | zero => rfl
  | succ n ih => rw [writeLittleEndian, List.length_cons, ih]

/-- Bytes from the lowest on make the number again, if they are enough for it. -/
theorem littleEndian_writeLittleEndian (n value : Nat) (h : value < 256 ^ n) :
    littleEndian (writeLittleEndian n value) = value := by
  induction n generalizing value with
  | zero =>
    rw [writeLittleEndian, littleEndian]
    omega
  | succ n ih =>
    have hhigh : value / 256 < 256 ^ n := by
      rw [Nat.div_lt_iff_lt_mul (by decide), ← Nat.pow_succ]
      exact h
    rw [writeLittleEndian, littleEndian, toNat_byte (by omega), ih _ hhigh]
    omega

/-- A float is read as it was written, whatever it is. -/
theorem reads_float (x : Float) : Reads float (writeFloat x) x := by
  have hlittle : littleEndian (writeFloat x) = x.toBits.toNat :=
    littleEndian_writeLittleEndian 8 _ x.toBits.toNat_lt
  have hbytes := reads_bytes (writeFloat x)
  rw [writeFloat, length_writeLittleEndian, ← writeFloat] at hbytes
  refine hbytes.bind_pure ?_
  rw [hlittle, UInt64.ofNat_toNat, Number.ofBits_toBits]

/-- Eight bytes are taken for a float. -/
theorem delimited_float : Delimited float fun _ => True :=
  (delimited_bytes 8).bind fun _ _ => .pure trivial

/-! ### Texts -/

/-- What a text is once its bytes are known. -/
private def decode (encoded : List UInt8) : Reader String :=
  match String.fromUTF8? ⟨encoded.toArray⟩ with
  | some text => return text
  | none => failure

/-- A text whose length fits a word is read as it was written. -/
theorem reads_text {value : String} (h : value.utf8ByteSize < 2 ^ 64) :
    Reads text (writeText value) value := by
  let encoded := value.toUTF8.data.toList
  have hlength : encoded.length < 2 ^ 64 := by
    rw [show encoded.length = value.utf8ByteSize from Array.length_toList]
    exact h
  have hdecode : Reads (decode encoded) [] value := by
    rw [decode, show String.fromUTF8? ⟨encoded.toArray⟩ = some value from dif_pos value.isValidUTF8]
    exact Reads.pure value
  have hbytes : Reads (bytes encoded.length >>= decode) (encoded ++ []) value :=
    (reads_bytes encoded).bind hdecode
  rw [List.append_nil] at hbytes
  exact (reads_varint (by decide) hlength).bind hbytes

/-- A text is not longer than the bytes that it is decoded from. -/
theorem delimited_decode {encoded : List UInt8} (h : encoded.length < 2 ^ 64) :
    Delimited (decode encoded) (·.utf8ByteSize < 2 ^ 64) := by
  rw [decode]
  by_cases hvalid : ByteArray.IsValidUTF8 ⟨encoded.toArray⟩
  · rw [show String.fromUTF8? ⟨encoded.toArray⟩ = some ⟨⟨encoded.toArray⟩, hvalid⟩ from
      dif_pos hvalid]
    exact .pure h
  · rw [show String.fromUTF8? ⟨encoded.toArray⟩ = none from dif_neg hvalid]
    exact .failure

/-- A text that is read has a length that fits a word. -/
theorem delimited_text : Delimited text (·.utf8ByteSize < 2 ^ 64) := by
  refine (delimited_varint 64).bind ?_
  intro n hn
  refine (delimited_bytes n).bind ?_
  intro encoded hlength
  exact delimited_decode (hlength ▸ hn)

/-! ### Lists and pairs -/

/-- A pair is read from what was written for its two sides. -/
theorem reads_pair {first : Reader α} {second : Reader β} {front back : List UInt8} {a : α} {b : β}
    (hfirst : Reads first front a) (hsecond : Reads second back b) :
    Reads (pair first second) (front ++ back) (a, b) :=
  hfirst.bind (hsecond.bind_pure rfl)

/-- A reader of pairs takes what the readers of the two sides take. -/
theorem Delimited.pair {first : Reader α} {second : Reader β} {P : α → Prop} {Q : β → Prop}
    (hfirst : Delimited first P) (hsecond : Delimited second Q) :
    Delimited (pair first second) fun found => P found.1 ∧ Q found.2 := by
  refine hfirst.bind ?_
  intro a ha
  refine hsecond.bind ?_
  intro b hb
  exact .pure ⟨ha, hb⟩

/-- Values that were written one behind the other are read one after the other. -/
theorem reads_times {item : Reader α} {written : List (List UInt8)} {values : List α}
    (h : List.Forall₂ (Reads item) written values) :
    Reads (times item values.length) written.flatten values := by
  induction h with
  | nil => exact Reads.pure []
  | cons hfirst _ ih => exact hfirst.bind (ih.bind_pure rfl)

/-- Reading a number of times gives that number of values. -/
theorem Delimited.times {item : Reader α} {P : α → Prop} (h : Delimited item P) (n : Nat) :
    Delimited (times item n) fun values => values.length = n ∧ ∀ value ∈ values, P value := by
  induction n with
  | zero => exact .pure ⟨rfl, fun _ hmem => nomatch hmem⟩
  | succ n ih =>
    -- The first value, then the others, each read from where the one before it ended.
    refine h.bind ?_
    intro first hfirst
    refine ih.bind ?_
    intro values hvalues
    refine .pure ⟨?_, ?_⟩
    · rw [List.length_cons, hvalues.1]
    · intro value hmem
      rcases List.mem_cons.1 hmem with rfl | hmem
      · exact hfirst
      · exact hvalues.2 value hmem

/-- A list behind its length, item by item. -/
theorem reads_list {item : Reader α} {written : List (List UInt8)} {values : List α}
    (h : List.Forall₂ (Reads item) written values) (hlength : values.length < 2 ^ 64) :
    Reads (list item) (writeVarint values.length ++ written.flatten) values :=
  (reads_varint (by decide) hlength).bind (reads_times h)

/-- A list is read as it was written, if its length fits a word and its values are read as they were
written. -/
theorem reads_writeList {item : Reader α} {write : α → List UInt8} {values : List α}
    (h : ∀ value ∈ values, Reads item (write value) value) (hlength : values.length < 2 ^ 64) :
    Reads (list item) (writeList write values) values := by
  rw [writeList, List.flatMap_def]
  refine reads_list ?_ hlength
  rw [List.forall₂_map_left_iff, List.forall₂_same]
  exact h

/-- A list that is read has a length that fits a word. -/
theorem Delimited.list {item : Reader α} {P : α → Prop} (h : Delimited item P) :
    Delimited (list item) fun values => values.length < 2 ^ 64 ∧ ∀ value ∈ values, P value := by
  refine (delimited_varint 64).bind ?_
  intro n hn
  refine (h.times n).mono ?_
  intro values hvalues
  exact ⟨hvalues.1 ▸ hn, hvalues.2⟩

/-! ### Readers that succeed more often -/

/-- Where the first reader succeeds, the second does the same. -/
def Refines (reader reader' : Reader α) : Prop :=
  ∀ input found, reader.run input = some found → reader'.run input = some found

/-- A reader that does at least as much reads the same. -/
theorem Reads.refine {reader reader' : Reader α} {bytes : List UInt8} {value : α}
    (h : Reads reader bytes value) (hrefines : Refines reader reader') :
    Reads reader' bytes value := by
  intro rest
  exact hrefines _ _ (h rest)

namespace Refines

/-- Every reader does what it does itself. -/
theorem refl (reader : Reader α) : Refines reader reader := by
  intro input found hrun
  exact hrun

/-- Steps may be refined one by one. -/
theorem bind {reader reader' : Reader α} {next next' : α → Reader β}
    (hreader : Refines reader reader') (hnext : ∀ a, Refines (next a) (next' a)) :
    Refines (reader >>= next) (reader' >>= next') := by
  intro input found hrun
  rw [StateT.run_bind, Option.bind_eq_bind, Option.bind_eq_some_iff] at hrun ⊢
  obtain ⟨⟨a, rest⟩, ha, hb⟩ := hrun
  exact ⟨(a, rest), hreader _ _ ha, hnext a _ _ hb⟩

/-- The second reader of a pair may be refined by itself. -/
theorem pair {first : Reader α} {second second' : Reader β} (h : Refines second second') :
    Refines (Reader.pair first second) (Reader.pair first second') := by
  refine (refl first).bind ?_
  intro a
  refine h.bind ?_
  intro b
  exact refl _

/-- A reader that is run a number of times may be refined. -/
theorem times {item item' : Reader α} (h : Refines item item') (n : Nat) :
    Refines (Reader.times item n) (Reader.times item' n) := by
  induction n with
  | zero => exact refl _
  | succ n ih =>
    refine h.bind ?_
    intro first
    refine ih.bind ?_
    intro values
    exact refl _

/-- The reader for the values of a list may be refined. -/
theorem list {item item' : Reader α} (h : Refines item item') :
    Refines (Reader.list item) (Reader.list item') := by
  refine (refl word64).bind ?_
  intro n
  exact h.times n

end Refines

end NaturalNames.Wire.Reader
