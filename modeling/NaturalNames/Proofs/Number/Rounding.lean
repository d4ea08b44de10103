import Mathlib
import NaturalNames.Proofs.Number.Bits

/-!
# `NaturalNames.Proofs.Number.Rounding`: what rounding and storing keep of a number

The result of an operation on floats is computed exactly, as a mantissa with an exponent, and then
rounded: bits behind the 53rd are shifted out, and so are those below the least exponent
(`excess`). `roundWithAccuracy_eq` says what comes of it. The rest is drawn from that, for results
whose mantissa is full or whose exponent is not above the least one:

* A rounded result is canonical (`isCanonical_roundWithAccuracy`), so it is read back as it was
  stored, or as an infinity if it is too great (`unpack_pack`).
* A multiple of a power of two stays one (`isMultiple_roundWithAccuracy`): either the shift ends
  above that power, or the bits shifted out are zeros.
* What is at least the least float above zero is not rounded to zero
  (`exists_roundWithAccuracy_eq_finite`), and what is below a power of two is not rounded beyond it
  (`isBelow_roundWithAccuracy`).
-/

set_option autoImplicit false

namespace NaturalNames.Number

open Float.Model (Format UnpackedFloat totalExponent)
open Float.Model.UnpackedFloat

/-! ### Shifting -/

/-- A mantissa that is shifted loses its lowest bits. What they were is kept beside it. -/
theorem mantissa_shiftRight (em : ExtendedMantissa) (n : Nat) :
    (em >>> n).mantissa = em.mantissa / 2 ^ n := by
  induction n with
  | zero =>
    show em.mantissa = em.mantissa / 2 ^ 0
    simp
  | succ n ih =>
    show (em >>> n).mantissa / 2 = em.mantissa / 2 ^ (n + 1)
    rw [ih, Nat.div_div_eq_div_mul, Nat.pow_succ]

/-- A shift that drops zeros only loses nothing. -/
theorem shiftRight_of_dvd {m n : Nat} (h : 2 ^ n ∣ m) :
    (⟨m, false, false⟩ : ExtendedMantissa) >>> n = ⟨m / 2 ^ n, false, false⟩ := by
  induction n with
  | zero =>
    show (⟨m, false, false⟩ : ExtendedMantissa) = ⟨m / 2 ^ 0, false, false⟩
    simp
  | succ n ih =>
    -- Each step shifts out a zero, since the mantissa is still even.
    obtain ⟨k, rfl⟩ := h
    have hdvd : 2 ^ n ∣ 2 ^ (n + 1) * k := ⟨2 * k, by ring⟩
    have hdiv : 2 ^ (n + 1) * k / 2 ^ n = 2 * k := by
      rw [Nat.pow_succ, Nat.mul_assoc, Nat.mul_div_cancel_left _ (Nat.two_pow_pos n)]
    show ((⟨_, false, false⟩ : ExtendedMantissa) >>> n).shiftRightOne = _
    rw [ih hdvd, hdiv, Nat.mul_div_cancel_left _ (Nat.two_pow_pos _)]
    simp [ExtendedMantissa.shiftRightOne]

/-- Rounding does not go down. -/
theorem le_roundedMantissa (em : ExtendedMantissa) : em.mantissa ≤ em.roundedMantissa := by
  obtain ⟨m, roundBit, stickyBit⟩ := em
  cases roundBit <;> cases stickyBit
  · exact Nat.le_refl m
  · exact Nat.le_refl m
  · exact Nat.le_add_right m (m % 2)
  · exact Nat.le_succ m

/-- Rounding goes up by one at most. -/
theorem roundedMantissa_le (em : ExtendedMantissa) : em.roundedMantissa ≤ em.mantissa + 1 := by
  obtain ⟨m, roundBit, stickyBit⟩ := em
  cases roundBit <;> cases stickyBit
  · exact Nat.le_succ m
  · exact Nat.le_succ m
  · show m + m % 2 ≤ m + 1
    omega
  · exact Nat.le_refl (m + 1)

/-- The number of bits that are shifted out of a mantissa: those behind the 53rd one, and those
below the least exponent. -/
def excess (m : Nat) (e : Int) : Nat := max (m.log2 - 52) (leastExponent - e).toNat

/-- The shift to the exponent of the format is one by the bits in excess. -/
theorem shiftToTargetExponent_eq (m : Nat) (e : Int) (accuracy : Accuracy) :
    shiftToTargetExponent Format.binary64 m e accuracy
      = (ExtendedMantissa.ofMantissaAndAccuracy m accuracy >>> excess m e, e + excess m e) := by
  have hbits : (Format.binary64.mantissaBits : Int) = 53 := rfl
  have hleast : Format.binary64.minExponent = leastExponent := rfl
  have hexcess : (Format.binary64.targetExponent (totalExponent m e) - e).toNat = excess m e := by
    rw [Format.targetExponent, totalExponent, excess, hbits, hleast]
    omega
  rw [shiftToTargetExponent, shiftToExponent, hexcess]

/-! ### Rounding -/

/-- What is known of the bits that were cut off does not change a mantissa. -/
theorem mantissa_ofMantissaAndAccuracy (m : Nat) (accuracy : Accuracy) :
    (ExtendedMantissa.ofMantissaAndAccuracy m accuracy).mantissa = m := by
  cases accuracy with
  | exact => rfl
  | inexact o => cases o <;> rfl

/-- Without the bits in excess a mantissa has the width of the format. -/
theorem div_two_pow_excess_lt (m : Nat) (e : Int) : m / 2 ^ excess m e < 2 * hiddenBit := by
  have hlog : m < 2 ^ (m.log2 + 1) := Nat.lt_log2_self
  have hpow : 2 ^ (m.log2 + 1) ≤ 2 ^ (excess m e + 53) :=
    Nat.pow_le_pow_right (by omega) (by unfold excess; omega)
  apply Nat.div_lt_of_lt_mul
  rw [Nat.pow_add 2 (excess m e)] at hpow
  rw [hiddenBit_eq]
  omega

/-- A mantissa of that width has no bits in excess, if its exponent is not too small. -/
theorem excess_eq_zero {m : Nat} {e : Int} (hm : m < 2 * hiddenBit) (he : leastExponent ≤ e) :
    excess m e = 0 := by
  have hlog : m.log2 < 53 := by
    rcases Nat.eq_zero_or_pos m with rfl | hpos
    · decide
    · exact (Nat.log2_lt (by omega)).2 (by rw [hiddenBit_eq] at hm; omega)
  rw [excess]
  omega

/-- Where rounding carries into a new bit there is one bit in excess. -/
theorem excess_carry {e : Int} (he : leastExponent ≤ e) : excess (2 * hiddenBit) e = 1 := by
  have hlog : (2 * hiddenBit).log2 = 53 := by decide
  rw [excess, hlog]
  omega

/-- Above the least exponent the shift leaves 53 bits. -/
theorem hiddenBit_le_div_two_pow_excess {m : Nat} {e : Int} (h : leastExponent < e → hiddenBit ≤ m)
    (habove : leastExponent < e + excess m e) : hiddenBit ≤ m / 2 ^ excess m e := by
  have hfull : leastExponent < e → 52 ≤ m.log2 := by
    intro hlt
    have hm := h hlt
    rw [hiddenBit_eq] at hm
    exact (Nat.le_log2 (by omega)).2 hm
  -- Above the least exponent the excess is the length beyond 53 bits, so 53 bits are left.
  have hlog : m.log2 = excess m e + 52 := by
    unfold excess at habove ⊢
    omega
  have hm : m ≠ 0 := by
    rintro rfl
    rw [Nat.log2_zero] at hlog
    omega
  rw [Nat.le_div_iff_mul_le (Nat.two_pow_pos _), hiddenBit_eq, ← Nat.pow_add, Nat.add_comm, ← hlog]
  exact Nat.log2_self_le hm

/-- The number with the given parts, zero if there is nothing to its mantissa. -/
def ofParts (sign : Sign) (m : Nat) (e : Int) : UnpackedFloat :=
  if h : m = 0 then .zero sign else .finite sign m e (Nat.pos_of_ne_zero h)

/-- The mantissa that is left after the shift, rounded. -/
def rounded (m : Nat) (e : Int) (accuracy : Accuracy) : Nat :=
  (ExtendedMantissa.ofMantissaAndAccuracy m accuracy >>> excess m e).roundedMantissa

/-- A rounded mantissa is at least the shifted one. -/
theorem le_rounded (m : Nat) (e : Int) (accuracy : Accuracy) :
    m / 2 ^ excess m e ≤ rounded m e accuracy := by
  have hle := le_roundedMantissa (ExtendedMantissa.ofMantissaAndAccuracy m accuracy >>> excess m e)
  rwa [mantissa_shiftRight, mantissa_ofMantissaAndAccuracy] at hle

/-- A rounded mantissa is at most one more than the shifted one. -/
theorem rounded_le (m : Nat) (e : Int) (accuracy : Accuracy) :
    rounded m e accuracy ≤ m / 2 ^ excess m e + 1 := by
  have hle := roundedMantissa_le (ExtendedMantissa.ofMantissaAndAccuracy m accuracy >>> excess m e)
  rwa [mantissa_shiftRight, mantissa_ofMantissaAndAccuracy] at hle

/-- After the shift no exponent is below the least. -/
theorem leastExponent_le_add_excess (m : Nat) (e : Int) : leastExponent ≤ e + excess m e := by
  unfold excess
  omega

/-- If rounding makes a bit too many, the result is the hidden bit of the next exponent. -/
theorem roundWithAccuracy_eq_ofParts (sign : Sign) (m : Nat) (e : Int) (accuracy : Accuracy) :
    roundWithAccuracy Format.binary64 sign m e accuracy
      = if rounded m e accuracy < 2 * hiddenBit then
          ofParts sign (rounded m e accuracy) (e + excess m e)
        else ofParts sign hiddenBit (e + excess m e + 1) := by
  have hle := rounded_le m e accuracy
  have hbound := div_two_pow_excess_lt m e
  have he := leastExponent_le_add_excess m e
  rw [roundWithAccuracy, shiftToTargetExponent_eq]
  dsimp only
  rw [shiftToTargetExponent_eq]
  dsimp only
  rw [mantissa_shiftRight, mantissa_ofMantissaAndAccuracy]
  -- The second shift is for the carry. There is a bit to shift only if rounding went up to a power
  -- of two.
  show ofParts sign (rounded m e accuracy / 2 ^ excess (rounded m e accuracy) (e + excess m e))
    (e + excess m e + excess (rounded m e accuracy) (e + excess m e)) = _
  split
  next hlt =>
    rw [excess_eq_zero hlt he, Nat.pow_zero, Nat.div_one, Nat.cast_zero, add_zero]
  next hge =>
    have hcarry : rounded m e accuracy = 2 * hiddenBit := by omega
    rw [hcarry, excess_carry he, pow_one, Nat.mul_div_cancel_left _ (by omega), Nat.cast_one]

/-- Rounding shifts a mantissa and goes up by at most one. -/
theorem roundWithAccuracy_eq (sign : Sign) (m : Nat) (e : Int) (accuracy : Accuracy) :
    ∃ r, m / 2 ^ excess m e ≤ r ∧ r ≤ m / 2 ^ excess m e + 1 ∧
      (accuracy = .exact → 2 ^ excess m e ∣ m → r = m / 2 ^ excess m e) ∧
      roundWithAccuracy Format.binary64 sign m e accuracy
        = if r < 2 * hiddenBit then ofParts sign r (e + excess m e)
          else ofParts sign hiddenBit (e + excess m e + 1) := by
  refine ⟨rounded m e accuracy, le_rounded m e accuracy, rounded_le m e accuracy, ?_,
    roundWithAccuracy_eq_ofParts sign m e accuracy⟩
  rintro rfl hdvd
  show ((⟨m, false, false⟩ : ExtendedMantissa) >>> excess m e).roundedMantissa = _
  rw [shiftRight_of_dvd hdvd]
  rfl

/-! ### What rounding keeps -/

/-- A mantissa with the hidden bit is not zero. -/
theorem ne_zero_of_hiddenBit_le {m : Nat} (h : hiddenBit ≤ m) : m ≠ 0 := by
  rw [hiddenBit_eq] at h
  omega

/-- A number, if it is one, is a multiple of `2 ^ g`. -/
def IsMultiple (g : Int) : UnpackedFloat → Prop
  | .finite _ m e _ => 2 ^ (g - e).toNat ∣ m
  | _ => True

/-- A number, if it is one, has a magnitude below `2 ^ k`. -/
def IsBelow (k : Int) : UnpackedFloat → Prop
  | .finite _ m e _ => m.log2 + e < k
  | _ => True

/-- Both zeros are in the form of the format. -/
theorem isCanonical_zero (sign : Sign) : (Reading.ofUnpacked (.zero sign)).IsCanonical := by
  show 0 < 2 * hiddenBit ∧ leastExponent ≤ leastExponent ∧ _
  exact ⟨by decide, Int.le_refl _, fun h => absurd h (Int.lt_irrefl _)⟩

/-- A mantissa of the right width, full unless the exponent is the least, is in the form of the
format. -/
theorem isCanonical_ofParts {sign : Sign} {m : Nat} {e : Int} (hm : m < 2 * hiddenBit)
    (he : leastExponent ≤ e) (hfull : leastExponent < e → hiddenBit ≤ m) :
    (Reading.ofUnpacked (ofParts sign m e)).IsCanonical := by
  rw [ofParts]
  split
  next => exact isCanonical_zero sign
  next => exact ⟨hm, he, hfull⟩

/-- A number is a multiple of a power of two if its mantissa, moved to that exponent, is. -/
theorem isMultiple_ofParts {g : Int} {sign : Sign} {m : Nat} {e : Int}
    (h : 2 ^ (g - e).toNat ∣ m) : IsMultiple g (ofParts sign m e) := by
  rw [ofParts]
  split
  next => trivial
  next => exact h

/-- A number with an exponent that is not below `g` is a multiple of `2 ^ g`. -/
theorem two_pow_dvd_of_le {g e : Int} (h : g ≤ e) (m : Nat) : 2 ^ (g - e).toNat ∣ m := by
  rw [Int.toNat_of_nonpos (by omega), Nat.pow_zero]
  exact Nat.one_dvd m

section

variable (sign : Sign) {m : Nat} {e : Int} (accuracy : Accuracy)

/-- A rounded result is canonical if the mantissa is full or the exponent is not above the least. -/
theorem isCanonical_roundWithAccuracy (h : leastExponent < e → hiddenBit ≤ m) :
    (Reading.ofUnpacked
      (roundWithAccuracy Format.binary64 sign m e accuracy)).IsCanonical := by
  obtain ⟨r, hr, -, -, heq⟩ := roundWithAccuracy_eq sign m e accuracy
  have hleast := leastExponent_le_add_excess m e
  rw [heq]
  split
  next hlt =>
    exact isCanonical_ofParts hlt hleast fun habove =>
      Nat.le_trans (hiddenBit_le_div_two_pow_excess h habove) hr
  next =>
    exact isCanonical_ofParts (by decide) (by omega) fun _ => Nat.le_refl _

/-- Rounding a multiple of a power of two, all bits known, gives a multiple of it. -/
theorem isMultiple_roundWithAccuracy {g : Int} (h : 2 ^ (g - e).toNat ∣ m) :
    IsMultiple g (roundWithAccuracy Format.binary64 sign m e .exact) := by
  obtain ⟨r, -, -, hexact, heq⟩ := roundWithAccuracy_eq sign m e .exact
  rw [heq]
  rcases Int.lt_or_le (e + excess m e) g with hlt | hle
  · -- The shift drops zeros only.
    have hpow : 2 ^ excess m e * 2 ^ (g - (e + excess m e)).toNat ∣ m := by
      rw [← Nat.pow_add]
      refine Nat.dvd_trans (Nat.pow_dvd_pow 2 ?_) h
      omega
    have hr : r = m / 2 ^ excess m e := hexact rfl (Nat.dvd_trans (Nat.dvd_mul_right _ _) hpow)
    rw [hr, if_pos (div_two_pow_excess_lt m e)]
    exact isMultiple_ofParts (Nat.dvd_div_of_mul_dvd hpow)
  · split
    next => exact isMultiple_ofParts (two_pow_dvd_of_le hle _)
    next => exact isMultiple_ofParts (two_pow_dvd_of_le (by omega) _)

/-- A number that is not below the least float above zero does not become zero. -/
theorem exists_roundWithAccuracy_eq_finite (hm : m ≠ 0) (h : leastExponent ≤ m.log2 + e) :
    ∃ r e' hr, roundWithAccuracy Format.binary64 sign m e accuracy = .finite sign r e' hr := by
  obtain ⟨r, hr, -, -, heq⟩ := roundWithAccuracy_eq sign m e accuracy
  -- Not all bits are in excess, so some are left when they are cut off.
  have hpow : 2 ^ excess m e ≤ m := by
    refine Nat.le_trans (Nat.pow_le_pow_right (by omega) ?_) (Nat.log2_self_le hm)
    unfold excess
    omega
  have hpos : 0 < r := Nat.lt_of_lt_of_le (Nat.div_pos hpow (Nat.two_pow_pos _)) hr
  rw [heq]
  split
  next =>
    refine ⟨r, e + excess m e, hpos, ?_⟩
    rw [ofParts, dif_neg (by omega)]
  next =>
    refine ⟨hiddenBit, e + excess m e + 1, by decide, ?_⟩
    rw [ofParts, dif_neg (by decide)]

/-- A number below a power of two is rounded to that power at most. -/
theorem isBelow_roundWithAccuracy {k : Int} (hk : m.log2 + e < k) (hleast : leastExponent ≤ k) :
    IsBelow (k + 1) (roundWithAccuracy Format.binary64 sign m e accuracy) := by
  obtain ⟨r, -, hr, -, heq⟩ := roundWithAccuracy_eq sign m e accuracy
  have hexcess : e + excess m e ≤ k := by
    unfold excess
    omega
  obtain ⟨n, hn⟩ := Int.le.dest hexcess
  have hquotient : m / 2 ^ excess m e < 2 ^ n := by
    have hlog : m < 2 ^ (m.log2 + 1) := Nat.lt_log2_self
    have hpow : 2 ^ (m.log2 + 1) ≤ 2 ^ (excess m e + n) :=
      Nat.pow_le_pow_right (by omega) (by omega)
    rw [Nat.pow_add 2 (excess m e)] at hpow
    exact Nat.div_lt_of_lt_mul (Nat.lt_of_lt_of_le hlog hpow)
  have hlog : r.log2 < n + 1 := by
    rcases Nat.eq_zero_or_pos r with rfl | hpos
    · rw [Nat.log2_zero]
      omega
    · rw [Nat.log2_lt (by omega), Nat.pow_succ]
      omega
  rw [heq]
  split
  next =>
    rw [ofParts]
    split
    next => trivial
    next =>
      show r.log2 + (e + excess m e) < k + 1
      omega
  next hcarry =>
    -- The mantissa before the carry had one bit more than the hidden one.
    have hle : 53 ≤ r.log2 := by
      rw [hiddenBit_eq] at hcarry
      exact (Nat.le_log2 (by omega)).2 (by omega)
    have hhidden : hiddenBit.log2 = 52 := by decide
    show hiddenBit.log2 + (e + excess m e + 1) < k + 1
    rw [hhidden]
    omega

end

/-! ### What is stored of a result -/

/-- A result as it is stored: too great a number becomes infinite. -/
def stored : UnpackedFloat → UnpackedFloat
  | .finite sign m e hm =>
    if leastExponent + 2046 ≤ e then .infinity sign else .finite sign m e hm
  | u => u

/-- The sign of packed parts is the one that was packed. -/
theorem ofBitVec_unpackSign_packComponents (sign : Sign)
    (exponent : BitVec Format.binary64.exponentBits)
    (mantissa : BitVec Format.binary64.mantissaBitsWithoutImplicit) :
    Sign.ofBitVec (unpackSign (packComponents Format.binary64 sign exponent mantissa)) = sign := by
  have hmantissa : mantissa.toNat < 2 ^ 52 := mantissa.isLt
  have hexponent : exponent.toNat < 2 ^ 11 := exponent.isLt
  have hbit : unpackSign (packComponents Format.binary64 sign exponent mantissa)
      = sign.toBitVec := by
    apply BitVec.eq_of_toNat_eq
    rw [toNat_unpackSign, toNat_packComponents, signBit_eq]
    omega
  rw [hbit]
  cases sign <;> rfl

/-- Packed parts are unpacked by their exponent: subnormal if it is zero, else with the hidden
bit. -/
theorem unpack_packComponents {sign : Sign} {exponent : BitVec Format.binary64.exponentBits}
    {mantissa : BitVec Format.binary64.mantissaBitsWithoutImplicit} (hmax : exponent ≠ -1#_) :
    UnpackedFloat.unpack Format.binary64 (packComponents Format.binary64 sign exponent mantissa)
      = if exponent = 0#_ then ofParts sign mantissa.toNat leastExponent
        else ofParts sign (hiddenBit + mantissa.toNat) (exponent.toNat - 1075) := by
  have happend : (1#1 ++ mantissa).toNat = hiddenBit + mantissa.toNat := toNat_append_eq _ _
  rw [UnpackedFloat.unpack]
  simp only [unpackExponent_packComponents, unpackMantissa_packComponents,
    ofBitVec_unpackSign_packComponents, if_neg hmax]
  split
  next hzero =>
    subst hzero
    -- With the exponent zero there is no hidden bit, and the mantissa decides between zero and a
    -- subnormal number.
    by_cases hm : mantissa = 0#_
    · subst hm
      rfl
    · have hne : mantissa.toNat ≠ 0 := fun h => hm (BitVec.eq_of_toNat_eq h)
      rw [ofParts, dif_neg hm, dif_neg hne]
      rfl
  next =>
    have hne : hiddenBit + mantissa.toNat ≠ 0 := by
      rw [hiddenBit_eq]
      omega
    rw [ofParts, dif_neg hne]
    simp only [happend]
    rfl

/-- A finite number is packed as an infinity if its exponent is too great, else as a normal or as a
subnormal one. -/
theorem pack_finite {sign : Sign} {m : Nat} {e : Int} (hpos : 0 < m) (hlt : m < 2 * hiddenBit) :
    UnpackedFloat.pack Format.binary64 (.finite sign m e hpos)
      = if leastExponent + 2046 ≤ e then packedInfinity Format.binary64 sign
        else if hiddenBit ≤ m then
          packComponents Format.binary64 sign (BitVec.ofNat _ (e + 1075).toNat) (BitVec.ofNat _ m)
        else packComponents Format.binary64 sign 0#_ (BitVec.ofNat _ m) := by
  have hbias : (Format.binary64.exponentBias : Int) = 1023 := rfl
  have hbits : Format.binary64.mantissaBits = 53 := rfl
  -- A mantissa of the width of the format is normal if its highest bit is set.
  have hlog : m.log2 + 1 = 53 ↔ hiddenBit ≤ m := by
    rw [hiddenBit_eq] at *
    have hle : 52 ≤ m.log2 ↔ 2 ^ 52 ≤ m := Nat.le_log2 (by omega)
    have hlt : m.log2 < 53 := (Nat.log2_lt (by omega)).2 (by omega)
    omega
  have hbiased : e + Format.binary64.exponentBias + Format.binary64.mantissaBitsWithoutImplicit
      = e + 1075 := by
    rw [hbias]
    show e + 1023 + 52 = e + 1075
    omega
  rw [UnpackedFloat.pack]
  dsimp only
  rw [hbiased, hbits]
  have hmax : 2 ^ 11 ≤ (e + 1075).toNat + 1 ↔ leastExponent + 2046 ≤ e := by
    unfold leastExponent
    omega
  simp only [hmax, hlog]

section

variable {sign : Sign} {m : Nat} {e : Int}

/-- A normal number comes back when it is packed and unpacked. -/
theorem unpack_pack_normal (hhidden : hiddenBit ≤ m) (hlt : m < 2 * hiddenBit)
    (he : leastExponent ≤ e) (hmax : e < leastExponent + 2046) :
    UnpackedFloat.unpack Format.binary64 (packComponents Format.binary64 sign
      (BitVec.ofNat _ (e + 1075).toNat) (BitVec.ofNat _ m)) = ofParts sign m e := by
  unfold leastExponent at he hmax
  rw [hiddenBit_eq] at hhidden hlt
  have hexponent : (BitVec.ofNat Format.binary64.exponentBits (e + 1075).toNat).toNat
      = (e + 1075).toNat := by
    rw [BitVec.toNat_ofNat]
    apply Nat.mod_eq_of_lt
    show (e + 1075).toNat < 2 ^ 11
    omega
  have hmantissa : (BitVec.ofNat Format.binary64.mantissaBitsWithoutImplicit m).toNat
      = m % 2 ^ 52 := BitVec.toNat_ofNat _ _
  rw [unpack_packComponents, if_neg, hmantissa, hexponent, hiddenBit_eq]
  · -- The exponent is neither of the two that are set aside.
    congr 1
    · omega
    · omega
  · intro hzero
    have h : (e + 1075).toNat = 0 := by rw [← hexponent, hzero]; rfl
    omega
  · intro hones
    have h : (e + 1075).toNat = 2047 := by rw [← hexponent, hones]; rfl
    omega

/-- A subnormal number comes back when it is packed and unpacked. -/
theorem unpack_pack_subnormal (hhidden : m < hiddenBit) :
    UnpackedFloat.unpack Format.binary64 (packComponents Format.binary64 sign 0#_
      (BitVec.ofNat _ m)) = ofParts sign m leastExponent := by
  have hmantissa : (BitVec.ofNat Format.binary64.mantissaBitsWithoutImplicit m).toNat = m := by
    rw [BitVec.toNat_ofNat]
    exact Nat.mod_eq_of_lt hhidden
  rw [unpack_packComponents (by decide), if_pos rfl, hmantissa]

end

/-- A canonical result is read back as it was, unless it is too great. -/
theorem unpack_pack {u : UnpackedFloat} (h : (Reading.ofUnpacked u).IsCanonical) :
    UnpackedFloat.unpack Format.binary64 (UnpackedFloat.pack Format.binary64 u) = stored u := by
  cases u with
  | notANumber => rfl
  | infinity sign => cases sign <;> rfl
  | zero sign => cases sign <;> rfl
  | finite sign m e hm =>
    obtain ⟨hlt, he, hfull⟩ := h
    have hparts : ofParts sign m e = .finite sign m e hm := dif_neg (by omega)
    rw [pack_finite hm hlt, stored, ← hparts]
    -- What is too great is packed and stored as an infinity.
    by_cases hmax : leastExponent + 2046 ≤ e
    · rw [if_pos hmax, if_pos hmax]
      cases sign <;> rfl
    rw [if_neg hmax, if_neg hmax]
    by_cases hhidden : hiddenBit ≤ m
    · rw [if_pos hhidden, unpack_pack_normal hhidden hlt he (by omega)]
    · -- Without the hidden bit the exponent is the least, which is what a subnormal number has.
      have hleast : e = leastExponent := by omega
      rw [if_neg hhidden, unpack_pack_subnormal (by omega), hleast]

end NaturalNames.Number
