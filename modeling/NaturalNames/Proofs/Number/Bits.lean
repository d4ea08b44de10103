import Mathlib
import NaturalNames.Proofs.Number.Exact

/-!
# `NaturalNames.Proofs.Number.Bits`: a float is its bits

`ofBits_toBits` says that the bits of a float give the float back, be it a number, a zero with its
sign, an infinity or NaN. The format has many NaNs, but a float is only ever the one of them that
`Format.Valid` asks for; every other pattern of bits is put together from its three fields again
(`packComponents_unpack`).

`beq_self` says what `==` makes of that: only NaN differs from itself. With `≤` it is the same
(`le_self_or_forall_not_le`).
-/

set_option autoImplicit false

namespace NaturalNames.Number

open Float.Model (Format UnpackedFloat)
open Float.Model.UnpackedFloat (packComponents unpackMantissa unpackExponent unpackSign Sign)

/-! ### The three fields -/

/-- The bit of a sign that was read from a bit is that bit. -/
theorem toBitVec_ofBitVec (bit : BitVec 1) : (Sign.ofBitVec bit).toBitVec = bit := by
  revert bit
  decide

/-- Packed parts are one number: the sign above the exponent, and the exponent above the
mantissa. -/
theorem toNat_packComponents (sign : Sign) (exponent : BitVec Format.binary64.exponentBits)
    (mantissa : BitVec Format.binary64.mantissaBitsWithoutImplicit) :
    (packComponents Format.binary64 sign exponent mantissa).toNat
      = (sign.toBitVec.toNat * 2 ^ 11 + exponent.toNat) * 2 ^ 52 + mantissa.toNat := by
  rw [packComponents, toNat_append_eq, toNat_append_eq]

/-- A word is put together again from its fields. -/
theorem packComponents_unpack (bits : BitVec Format.binary64.numBits) :
    packComponents Format.binary64 (Sign.ofBitVec (unpackSign bits)) (unpackExponent bits)
      (unpackMantissa bits) = bits := by
  have hbits : bits.toNat < 2 ^ 64 := bits.isLt
  refine BitVec.eq_of_toNat_eq ?_
  rw [toNat_packComponents, toBitVec_ofBitVec, toNat_unpackSign, toNat_unpackExponent,
    toNat_unpackMantissa, signBit_eq, hiddenBit_eq]
  omega

/-! ### Packing what was unpacked -/

/-- A mantissa with the hidden bit has 53 bits. -/
theorem log2_normal {m : Nat} (h : m < hiddenBit) : (hiddenBit + m).log2 = 52 := by
  rw [hiddenBit_eq] at h ⊢
  rw [Nat.log2_eq_iff (by omega)]
  omega

/-- A mantissa without the hidden bit has at most 52 bits. -/
theorem log2_subnormal {m : Nat} (hm : m ≠ 0) (h : m < hiddenBit) : m.log2 < 52 :=
  (Nat.log2_lt hm).2 h

/-- A subnormal number is packed with an exponent of zero. -/
theorem pack_subnormal (sign : Sign)
    (mantissa : BitVec Format.binary64.mantissaBitsWithoutImplicit) (hpos : 0 < mantissa.toNat) :
    UnpackedFloat.pack Format.binary64 (.finite sign mantissa.toNat leastExponent hpos)
      = packComponents Format.binary64 sign 0#_ mantissa := by
  -- The hidden bit is missing, so `pack` writes the exponent field of subnormal numbers: zero.
  have hlog : mantissa.toNat.log2 < 52 := log2_subnormal (by omega) mantissa.isLt
  have hbits : Format.binary64.mantissaBits = 53 := rfl
  have hbiased : (leastExponent + Format.binary64.exponentBias
      + Format.binary64.mantissaBitsWithoutImplicit : Int).toNat = 1 := rfl
  rw [UnpackedFloat.pack]
  dsimp only
  rw [hbiased, if_neg (by decide), if_neg (by omega), BitVec.ofNat_toNat, BitVec.setWidth_eq]

/-- A normal number is packed with its exponent and without the hidden bit. -/
theorem pack_normal (sign : Sign) (exponent : BitVec Format.binary64.exponentBits)
    (mantissa : BitVec Format.binary64.mantissaBitsWithoutImplicit)
    (hmax : exponent ≠ -1#_) (hpos : 0 < (1#1 ++ mantissa).toNat) :
    UnpackedFloat.pack Format.binary64 (.finite sign (1#1 ++ mantissa).toNat
        (exponent.toNat - (Format.binary64.exponentBias
          + Format.binary64.mantissaBitsWithoutImplicit)) hpos)
      = packComponents Format.binary64 sign exponent mantissa := by
  -- The hidden bit is the highest one, so the exponent is not shifted, and taking the significand
  -- modulo the hidden bit leaves the mantissa.
  have hbound : exponent.toNat < 2 ^ 11 := exponent.isLt
  have hne : exponent.toNat ≠ 2 ^ 11 - 1 := fun h => hmax (BitVec.eq_of_toNat_eq h)
  have happend : (1#1 ++ mantissa).toNat = hiddenBit + mantissa.toNat := toNat_append_eq _ _
  have hlog : (1#1 ++ mantissa).toNat.log2 = 52 := by
    rw [happend]
    exact log2_normal mantissa.isLt
  have hbits : Format.binary64.mantissaBits = 53 := rfl
  have hbiased : ((exponent.toNat : Int) - (Format.binary64.exponentBias
        + Format.binary64.mantissaBitsWithoutImplicit) + Format.binary64.exponentBias
        + Format.binary64.mantissaBitsWithoutImplicit).toNat = exponent.toNat := by omega
  have hmantissa : BitVec.ofNat Format.binary64.mantissaBitsWithoutImplicit (1#1 ++ mantissa).toNat
      = mantissa := by
    refine BitVec.eq_of_toNat_eq ?_
    rw [BitVec.toNat_ofNat, happend]
    exact (Nat.add_mod_left _ _).trans (Nat.mod_eq_of_lt mantissa.isLt)
  rw [UnpackedFloat.pack]
  dsimp only
  rw [hbiased, if_neg (by omega), if_pos (by rw [hlog, hbits]), hmantissa,
    BitVec.ofNat_toNat, BitVec.setWidth_eq]

/-- Bits that are unpacked and packed again are the same, unless they are those of no number. -/
theorem pack_unpack {bits : BitVec Format.binary64.numBits} (h : Format.binary64.Valid bits) :
    UnpackedFloat.pack Format.binary64 (UnpackedFloat.unpack Format.binary64 bits) = bits := by
  -- The cases are those of `unpack`. Except for NaN each keeps the fields that it read, and packing
  -- puts them back as they were.
  have hself := packComponents_unpack bits
  rw [UnpackedFloat.unpack]
  by_cases hmax : unpackExponent bits = -1#_
  · rw [if_pos hmax]
    by_cases hzero : unpackMantissa bits = 0#_
    · rw [if_pos hzero]
      rwa [hmax, hzero] at hself
    · rw [if_neg hzero]
      exact (h.eq_packedNaN hmax hzero).symm
  rw [if_neg hmax]
  by_cases hleast : unpackExponent bits = 0#_
  · rw [if_pos hleast]
    by_cases hzero : unpackMantissa bits = 0#_
    · rw [dif_pos hzero]
      rwa [hleast, hzero] at hself
    · rw [dif_neg hzero]
      rw [hleast] at hself ⊢
      exact (pack_subnormal _ _ _).trans hself
  · rw [if_neg hleast]
    exact (pack_normal _ _ _ hmax _).trans hself

/-- A float is made again from its bits. -/
theorem ofBits_toBits (x : Float) : Float.ofBits x.toBits = x := by
  cases x with
  | ofModel model =>
    cases model with
    | mk bits valid =>
      have hpack := pack_unpack valid
      show Float.ofModel ⟨UInt64.ofBitVec (UnpackedFloat.pack Format.binary64
        (UnpackedFloat.unpack Format.binary64 bits.toBitVec)), _⟩ = _
      simp only [hpack]

/-! ### Comparison with itself -/

/-- An unpacked float equals itself if it is a number. -/
theorem compare_unpacked_self (u : UnpackedFloat) :
    u.compare u = if u.isNaN then none else some .eq := by
  cases u with
  | notANumber => rfl
  | infinity s => cases s <;> rfl
  | zero s => rfl
  | finite s m e hm =>
    have heq : (compare e e).then (compare m m) = .eq := by
      rw [Std.ReflOrd.compare_self, Std.ReflOrd.compare_self]
      rfl
    cases s with
    | positive => exact congrArg some heq
    | negative => exact congrArg some (congrArg Ordering.swap heq)

/-- A float equals itself if it is a number. -/
theorem beq_self (x : Float) : (x == x) = !x.isNaN := by
  show (x.toModel.unpack.compare x.toModel.unpack == some .eq) = !x.toModel.unpack.isNaN
  rw [compare_unpacked_self]
  cases x.toModel.unpack.isNaN <;> rfl

/-- A float is at most itself or, being NaN, has nothing that is at most it. -/
theorem le_self_or_forall_not_le (x : Float) : x ≤ x ∨ ∀ y : Float, ¬ y ≤ x := by
  by_cases hnan : x.toModel.unpack = .notANumber
  · -- Nothing compares with what is no number.
    refine .inr fun y hle => ?_
    obtain ⟨o, ho, -⟩ := le_iff_compare.1 hle
    rw [hnan, compare_notANumber] at ho
    cases ho
  · refine .inl (le_iff_compare.2 ⟨.eq, ?_, rfl⟩)
    rw [compare_unpacked_self, if_neg]
    cases hx : x.toModel.unpack with
    | notANumber => exact absurd hx hnan
    | infinity s => exact Bool.false_ne_true
    | zero s => exact Bool.false_ne_true
    | finite s m e hm => exact Bool.false_ne_true

end NaturalNames.Number
