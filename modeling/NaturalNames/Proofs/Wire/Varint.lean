import Mathlib.Algebra.Ring.Nat
import NaturalNames.Wire.Varint

/-!
# `NaturalNames.Proofs.Wire.Varint`: what is written is read

* `readVarint_writeVarint`: a number that its width holds is read back, whatever follows it.
* `exists_front_of_readVarint`: reading takes bytes from the front and does not look at the rest.

The reader takes a limited number of bytes, and the writer needs one for every seven bits; so the
round trip is an induction on the limit.
-/

set_option autoImplicit false

namespace NaturalNames.Wire

/-- A number below 256 is a byte. -/
theorem toNat_byte {n : Nat} (h : n < 256) : (UInt8.ofNat n).toNat = n := UInt8.toNat_ofNat_of_lt' h

/-- A number is written in one byte at least. -/
theorem length_writeVarint_pos (n : Nat) : 0 < (writeVarint n).length := by
  rw [writeVarint]
  split <;> exact Nat.succ_pos _

/-! ### Reading what was written -/

/-- Digits are read as they were written, if there are not too many. -/
theorem readDigits_writeVarint (limit n : Nat) (h : n < 128 ^ (limit + 1)) (rest : List UInt8) :
    readDigits (limit + 1) (writeVarint n ++ rest) = some (n, rest) := by
  -- Both the limit and the number get smaller: by one byte, and by the seven bits in it.
  induction limit generalizing n with
  | zero =>
    have hlast : n < 128 := h
    have hbyte : (UInt8.ofNat n).toNat = n := toNat_byte (by omega)
    rw [writeVarint, if_pos hlast]
    show readDigits 1 (UInt8.ofNat n :: rest) = _
    rw [readDigits, hbyte, if_pos hlast]
  | succ limit ih =>
    rw [writeVarint]
    by_cases hlast : n < 128
    · have hbyte : (UInt8.ofNat n).toNat = n := toNat_byte (by omega)
      rw [if_pos hlast]
      show readDigits (limit + 2) (UInt8.ofNat n :: rest) = _
      rw [readDigits, hbyte, if_pos hlast]
    · have hbyte : (UInt8.ofNat (128 + n % 128)).toNat = 128 + n % 128 :=
        toNat_byte (by omega)
      have hhigh : n / 128 < 128 ^ (limit + 1) := by
        rw [Nat.div_lt_iff_lt_mul (by decide), ← Nat.pow_succ]
        exact h
      rw [if_neg hlast, List.cons_append, readDigits, hbyte, if_neg (by omega), ih _ hhigh]
      show some (_, rest) = some (n, rest)
      congr 2
      omega

/-- A number is read back at every width that holds it. -/
theorem readVarint_writeVarint {bits n : Nat} (hbits : 0 < bits) (h : n < 2 ^ bits)
    (rest : List UInt8) : readVarint bits (writeVarint n ++ rest) = some (n, rest) := by
  obtain ⟨limit, hlimit⟩ : ∃ limit, (bits + 6) / 7 = limit + 1 :=
    ⟨(bits + 6) / 7 - 1, by omega⟩
  -- The limit is the number of bits in bytes of seven, rounded up, so it has room for `n`.
  have hdigits : n < 128 ^ (limit + 1) := by
    have hle : 2 ^ bits ≤ 2 ^ (7 * (limit + 1)) := Nat.pow_le_pow_right (by decide) (by omega)
    rw [Nat.pow_mul] at hle
    exact Nat.lt_of_lt_of_le h hle
  rw [readVarint, hlimit, readDigits_writeVarint limit n hdigits rest]
  exact Option.filter_some_pos (decide_eq_true h)

/-! ### Reading takes from the front -/

/-- What is read depends on the bytes that are taken alone. -/
theorem exists_front_of_readDigits {limit n : Nat} {input rest : List UInt8}
    (h : readDigits limit input = some (n, rest)) :
    ∃ front, input = front ++ rest ∧
      ∀ rest', readDigits limit (front ++ rest') = some (n, rest') := by
  -- The bytes that are taken are the same for every rest, as each is looked at before the rest is.
  induction limit generalizing input n with
  | zero => cases h
  | succ limit ih =>
    cases input with
    | nil => cases h
    | cons byte input =>
      rw [readDigits] at h
      by_cases hlast : byte.toNat < 128
      · rw [if_pos hlast] at h
        cases h
        refine ⟨[byte], rfl, fun rest' => ?_⟩
        show readDigits (limit + 1) (byte :: rest') = _
        rw [readDigits, if_pos hlast]
      · rw [if_neg hlast, Option.map_eq_some_iff] at h
        obtain ⟨⟨high, after⟩, hhigh, heq⟩ := h
        cases heq
        obtain ⟨front, rfl, hfront⟩ := ih hhigh
        refine ⟨byte :: front, rfl, fun rest' => ?_⟩
        rw [List.cons_append, readDigits, if_neg hlast, hfront]
        rfl

/-- A number that is read fits and depends on the bytes that are taken alone. -/
theorem exists_front_of_readVarint {bits n : Nat} {input rest : List UInt8}
    (h : readVarint bits input = some (n, rest)) :
    n < 2 ^ bits ∧ ∃ front, input = front ++ rest ∧
      ∀ rest', readVarint bits (front ++ rest') = some (n, rest') := by
  rw [readVarint, Option.filter_eq_some_iff] at h
  obtain ⟨hdigits, hbound⟩ := h
  obtain ⟨front, hinput, hfront⟩ := exists_front_of_readDigits hdigits
  refine ⟨of_decide_eq_true hbound, front, hinput, fun rest' => ?_⟩
  rw [readVarint, hfront, Option.filter_eq_some_iff]
  exact ⟨rfl, hbound⟩

end NaturalNames.Wire
