import Mathlib
import NaturalNames.Number.Binary

/-!
# `NaturalNames.Proofs.Number.Exact`: floats compare as the numbers they stand for

A finite float stands for the rational number `exact`. Floats are compared by their parts: sign,
then exponent, then significand. That gives the order of the numbers because a significand either
has all its bits or goes with the least exponent (`Reading.IsCanonical`), so a greater exponent
means a greater number.

`lt_iff` and `le_iff` carry a comparison of floats, such as the check of a setting, over to exact
numbers. `isFinite_of_le_of_le` gives the condition they ask for: what lies between two numbers is
a number.
-/

set_option autoImplicit false

namespace NaturalNames.Number

open Float.Model (Format UnpackedFloat)
open Float.Model.UnpackedFloat (unpackMantissa unpackExponent unpackSign Sign)

/-- The bit in front of the stored mantissa, as a power of two. -/
theorem hiddenBit_eq : hiddenBit = 2 ^ 52 := rfl

/-- The bit of the sign, as a power of two. -/
theorem signBit_eq : signBit = 2 ^ 63 := rfl

/-! ### Readings -/

namespace Reading

/-- The number that a reading stands for. It is zero for readings that are no numbers. -/
def exact : Reading → ℚ
  | .finite negative significand exponent =>
    (if negative then -1 else 1) * (significand * 2 ^ exponent)
  | _ => 0

/-- A significand has 53 bits, or less at the least exponent. -/
def IsCanonical : Reading → Prop
  | .finite _ significand exponent =>
    significand < 2 * hiddenBit ∧ leastExponent ≤ exponent ∧
      (leastExponent < exponent → hiddenBit ≤ significand)
  | _ => True

/-- Every float that is read from its bits is in the form of the format. -/
theorem isCanonical_ofFloat (x : Float) : (ofFloat x).IsCanonical := by
  have hfraction : x.toBits.toNat % hiddenBit < hiddenBit := Nat.mod_lt _ (by decide)
  -- The least exponent is that of subnormal numbers, which lack the hidden bit, and of the smallest
  -- normal ones; a greater exponent comes from an exponent field above one.
  unfold ofFloat
  dsimp only
  split
  · split <;> trivial
  · split
    · exact ⟨by omega, Int.le_refl _, fun h => absurd h (Int.lt_irrefl _)⟩
    · exact ⟨by omega, by omega, fun _ => Nat.le_add_right _ _⟩

/-- What the bit of a sign says. -/
def isNegative : Sign → Bool
  | .negative => true
  | .positive => false

/-- The reading of a float that is already taken apart. -/
def ofUnpacked : UnpackedFloat → Reading
  | .infinity sign => .infinite (isNegative sign)
  | .notANumber => .nan
  | .zero sign => .finite (isNegative sign) 0 leastExponent
  | .finite sign mantissa exponent _ => .finite (isNegative sign) mantissa exponent

end Reading

/-! ### The fields of the format -/

/-- Bits that are put together are the high ones, moved up, and the low ones. -/
theorem toNat_append_eq {v w : Nat} (high : BitVec v) (low : BitVec w) :
    (high ++ low).toNat = high.toNat * 2 ^ w + low.toNat := by
  rw [BitVec.toNat_append, ← Nat.shiftLeft_add_eq_or_of_lt low.isLt, Nat.shiftLeft_eq]

section Fields

variable (bits : BitVec Format.binary64.numBits)

/-- The stored mantissa is what is left below the hidden bit. -/
theorem toNat_unpackMantissa : (unpackMantissa bits).toNat = bits.toNat % hiddenBit := by
  simp [unpackMantissa, hiddenBit]

/-- The stored exponent is what the next eleven bits say. -/
theorem toNat_unpackExponent :
    (unpackExponent bits).toNat = bits.toNat / hiddenBit % 2048 := by
  simp [unpackExponent, hiddenBit, Nat.shiftRight_eq_div_pow]

/-- The sign is the bit above all others. -/
theorem toNat_unpackSign : (unpackSign bits).toNat = bits.toNat / signBit := by
  have hbits : bits.toNat < 2 ^ 64 := bits.isLt
  have hfield : (unpackSign bits).toNat = bits.toNat / 2 ^ 63 % 2 := by
    simp [unpackSign, Nat.shiftRight_eq_div_pow]
  rw [signBit_eq]
  omega

/-- A float is negative if its highest bit is set. -/
theorem isNegative_unpackSign :
    Reading.isNegative (Sign.ofBitVec (unpackSign bits)) = decide (signBit ≤ bits.toNat) := by
  have hsign := toNat_unpackSign bits
  rw [signBit_eq] at hsign ⊢
  rw [Sign.ofBitVec]
  split
  next h =>
    rw [h] at hsign
    exact (decide_eq_false (by simp at hsign; omega)).symm
  next h =>
    have hne : (unpackSign bits).toNat ≠ 0 := fun hzero => h (BitVec.eq_of_toNat_eq hzero)
    exact (decide_eq_true (by omega)).symm

/-- Whether the mantissa is zero can be asked of the bits as a number. -/
theorem unpackMantissa_eq_zero_iff : unpackMantissa bits = 0#_ ↔ bits.toNat % hiddenBit = 0 := by
  rw [← toNat_unpackMantissa, ← BitVec.toNat_inj]
  rfl

/-- Whether the exponent is that of zero and the subnormal numbers can be asked of the bits, too. -/
theorem unpackExponent_eq_zero_iff :
    unpackExponent bits = 0#_ ↔ bits.toNat / hiddenBit % 2048 = 0 := by
  rw [← toNat_unpackExponent, ← BitVec.toNat_inj]
  rfl

/-- So can be asked whether it is that of the infinities. -/
theorem unpackExponent_eq_max_iff :
    unpackExponent bits = -1#_ ↔ bits.toNat / hiddenBit % 2048 = 2047 := by
  rw [← toNat_unpackExponent, ← BitVec.toNat_inj]
  rfl

/-- With the hidden bit in front a normal mantissa is at least that bit. -/
theorem toNat_append_unpackMantissa :
    (1#1 ++ unpackMantissa bits).toNat = hiddenBit + bits.toNat % hiddenBit := by
  rw [toNat_append_eq, toNat_unpackMantissa]
  rfl

end Fields

/-- Reading a float is taking it apart. -/
theorem Reading.ofFloat_eq_ofUnpacked (x : Float) :
    ofFloat x = ofUnpacked x.toModel.unpack := by
  have hbias : (Format.binary64.exponentBias : Int) + Format.binary64.mantissaBitsWithoutImplicit
      = 1075 := rfl
  have hbits : x.toBits.toNat = x.toModel.toBits.toBitVec.toNat := rfl
  rw [ofFloat, Float.Model.unpack, hbits]
  generalize (x.toModel.toBits.toBitVec : BitVec Format.binary64.numBits) = bits
  rw [UnpackedFloat.unpack, ← isNegative_unpackSign]
  -- Both sides ask the same questions about the fields, one of numbers and one of bit vectors.
  by_cases hmax : bits.toNat / hiddenBit % 2048 = 2047
  · rw [if_pos hmax, if_pos ((unpackExponent_eq_max_iff bits).2 hmax)]
    by_cases hfraction : bits.toNat % hiddenBit = 0
    · rw [if_pos hfraction, if_pos ((unpackMantissa_eq_zero_iff bits).2 hfraction), ofUnpacked]
    · rw [if_neg hfraction, if_neg (mt (unpackMantissa_eq_zero_iff bits).1 hfraction), ofUnpacked]
  rw [if_neg hmax, if_neg (mt (unpackExponent_eq_max_iff bits).1 hmax)]
  by_cases hzero : bits.toNat / hiddenBit % 2048 = 0
  · rw [if_pos hzero, if_pos ((unpackExponent_eq_zero_iff bits).2 hzero)]
    by_cases hfraction : bits.toNat % hiddenBit = 0
    · rw [dif_pos ((unpackMantissa_eq_zero_iff bits).2 hfraction), ofUnpacked, hfraction]
    · rw [dif_neg (mt (unpackMantissa_eq_zero_iff bits).1 hfraction), ofUnpacked,
        toNat_unpackMantissa, toNat_unpackExponent, hzero]
      rfl
  · rw [if_neg hzero, if_neg (mt (unpackExponent_eq_zero_iff bits).1 hzero), ofUnpacked,
      toNat_append_unpackMantissa, toNat_unpackExponent, hbias, leastExponent]
    congr 1
    omega

/-! ### Comparison -/

section Scaled

variable {m n : Nat} {d e : Int}

/-- With significands of full length, a greater exponent makes the greater number. -/
theorem scaled_lt_of_exponent_lt (hm : m < 2 * hiddenBit) (hn : hiddenBit ≤ n) (h : d < e) :
    (m * 2 ^ d : ℚ) < n * 2 ^ e := by
  have hm' : (m : ℚ) < 2 * hiddenBit := by exact_mod_cast hm
  have hn' : (hiddenBit : ℚ) ≤ n := by exact_mod_cast hn
  have hpow : (2 : ℚ) ^ (d + 1) ≤ 2 ^ e := zpow_le_zpow_right₀ (by norm_num) (by omega)
  calc (m * 2 ^ d : ℚ) < 2 * hiddenBit * 2 ^ d :=
        mul_lt_mul_of_pos_right hm' (zpow_pos (by norm_num) d)
    _ = hiddenBit * 2 ^ (d + 1) := by
        rw [zpow_add₀ (by norm_num), zpow_one]
        ring
    _ ≤ n * 2 ^ e :=
        mul_le_mul hn' hpow (zpow_pos (by norm_num) _).le (Nat.cast_nonneg n)

/-- Canonical numbers compare by exponent, and by significand if the exponents agree. -/
theorem compare_scaled (hm : m < 2 * hiddenBit) (hd : leastExponent ≤ d)
    (hm' : leastExponent < d → hiddenBit ≤ m) (hn : n < 2 * hiddenBit) (he : leastExponent ≤ e)
    (hn' : leastExponent < e → hiddenBit ≤ n) :
    compare (m * 2 ^ d : ℚ) (n * 2 ^ e) = (compare d e).then (compare m n) := by
  -- A greater exponent is above the least one, so the significand that goes with it is full.
  rcases Int.lt_trichotomy d e with h | rfl | h
  · rw [Int.compare_eq_lt.2 h, compare_lt_iff_lt.2
      (scaled_lt_of_exponent_lt hm (hn' (by omega)) h)]
    rfl
  · have hmono : StrictMono fun k : Nat => (k * 2 ^ d : ℚ) := fun j k hjk =>
      mul_lt_mul_of_pos_right (Nat.cast_lt.2 hjk) (zpow_pos (by norm_num) d)
    rw [Std.ReflOrd.compare_self, Ordering.eq_then, ← cmp_eq_compare, ← cmp_eq_compare]
    exact hmono.cmp_map_eq m n
  · rw [Int.compare_eq_gt.2 h, compare_gt_iff_gt.2
      (scaled_lt_of_exponent_lt hn (hm' (by omega)) h)]
    rfl

end Scaled

namespace Reading

/-- A positive mantissa without a sign stands for a positive number. -/
theorem exact_pos {m : Nat} {e : Int} (hm : 0 < m) : 0 < exact (.finite false m e) := by
  rw [exact, if_neg (by decide), one_mul]
  exact mul_pos (Nat.cast_pos.2 hm) (zpow_pos (by norm_num) e)

/-- A positive mantissa with a sign stands for a negative number. -/
theorem exact_neg {m : Nat} {e : Int} (hm : 0 < m) : exact (.finite true m e) < 0 := by
  rw [exact, if_pos rfl, neg_one_mul]
  exact neg_neg_of_pos (mul_pos (Nat.cast_pos.2 hm) (zpow_pos (by norm_num) e))

/-- A mantissa of zero stands for the number zero, whatever its sign. -/
theorem exact_zero (negative : Bool) (e : Int) : exact (.finite negative 0 e) = 0 := by
  rw [exact, Nat.cast_zero, zero_mul, mul_zero]

/-- In canonical form the greater exponent decides between positive numbers, and then the greater
mantissa. -/
theorem compare_exact_positive {m n : Nat} {d e : Int}
    (hm : IsCanonical (.finite false m d)) (hn : IsCanonical (.finite false n e)) :
    compare (exact (.finite false m d)) (exact (.finite false n e))
      = (compare d e).then (compare m n) := by
  rw [exact, exact, if_neg (by decide), one_mul, one_mul]
  exact compare_scaled hm.1 hm.2.1 hm.2.2 hn.1 hn.2.1 hn.2.2

/-- Between negative numbers it is the other way round. -/
theorem compare_exact_negative {m n : Nat} {d e : Int}
    (hm : IsCanonical (.finite true m d)) (hn : IsCanonical (.finite true n e)) :
    compare (exact (.finite true m d)) (exact (.finite true n e))
      = ((compare d e).then (compare m n)).swap := by
  have hanti : StrictAnti fun x : ℚ => -1 * x :=
    fun x y hxy => mul_lt_mul_of_neg_left hxy (by norm_num)
  rw [exact, exact, if_pos rfl, ← compare_scaled hm.1 hm.2.1 hm.2.2 hn.1 hn.2.1 hn.2.2,
    ← cmp_eq_compare, ← cmp_eq_compare, cmp_swap]
  exact hanti.cmp_map_eq _ _

/-- Unpacked numbers compare as the numbers they stand for. -/
theorem compare_eq_compare_exact {a b : UnpackedFloat} (ha : a.isFinite) (hb : b.isFinite)
    (hca : (ofUnpacked a).IsCanonical) (hcb : (ofUnpacked b).IsCanonical) :
    a.compare b = some (compare (ofUnpacked a).exact (ofUnpacked b).exact) := by
  -- Numbers of different signs, and zero with any number, are told apart by sign alone. Only two
  -- numbers of one sign are compared by their parts.
  cases a with
  | infinity s => cases ha
  | notANumber => cases ha
  | zero s =>
    have hzero : (ofUnpacked (.zero s)).exact = 0 := exact_zero _ _
    rw [hzero]
    cases b with
    | infinity t => cases hb
    | notANumber => cases hb
    | zero t => exact congrArg some (compare_eq_iff_eq.2 (exact_zero _ _).symm).symm
    | finite t n e hn =>
      cases t with
      | positive => exact congrArg some (compare_lt_iff_lt.2 (exact_pos hn)).symm
      | negative => exact congrArg some (compare_gt_iff_gt.2 (exact_neg hn)).symm
  | finite s m d hm =>
    cases b with
    | infinity t => cases hb
    | notANumber => cases hb
    | zero t =>
      have hzero : (ofUnpacked (.zero t)).exact = 0 := exact_zero _ _
      rw [hzero]
      cases s with
      | positive => exact congrArg some (compare_gt_iff_gt.2 (exact_pos hm)).symm
      | negative => exact congrArg some (compare_lt_iff_lt.2 (exact_neg hm)).symm
    | finite t n e hn =>
      cases s with
      | positive =>
        cases t with
        | positive => exact congrArg some (compare_exact_positive hca hcb).symm
        | negative =>
          exact congrArg some (compare_gt_iff_gt.2 ((exact_neg hn).trans (exact_pos hm))).symm
      | negative =>
        cases t with
        | positive =>
          exact congrArg some (compare_lt_iff_lt.2 ((exact_neg hm).trans (exact_pos hn))).symm
        | negative => exact congrArg some (compare_exact_negative hca hcb).symm

end Reading

/-! ### Floats -/

/-- The number that a float stands for, and zero if it stands for none. -/
def exact (x : Float) : ℚ := (Reading.ofFloat x).exact

variable {x y z : Float}

/-- Floats that are finite by their bits are finite when they are unpacked. -/
theorem isFinite_eq_isFinite_unpack (x : Float) : isFinite x = x.toModel.unpack.isFinite := by
  rw [isFinite, Reading.ofFloat_eq_ofUnpacked]
  cases x.toModel.unpack <;> rfl

/-- The order of floats is that of the unpacked ones. -/
theorem lt_iff_compare :
    x < y ↔ x.toModel.unpack.compare y.toModel.unpack = some .lt := by
  show decide (x.toModel < y.toModel) = true ↔ _
  rw [decide_eq_true_iff]
  exact beq_iff_eq

/-- So is the order with equality, which floats that are not numbers are not in. -/
theorem le_iff_compare :
    x ≤ y ↔ ∃ o, x.toModel.unpack.compare y.toModel.unpack = some o ∧ o.isLE := by
  show decide (x.toModel ≤ y.toModel) = true ↔ _
  rw [decide_eq_true_iff]
  exact Option.any_eq_true _ _

/-- Finite floats compare as the numbers that they stand for. -/
theorem compare_unpack (hx : isFinite x) (hy : isFinite y) :
    x.toModel.unpack.compare y.toModel.unpack = some (compare (exact x) (exact y)) := by
  rw [exact, exact, Reading.ofFloat_eq_ofUnpacked, Reading.ofFloat_eq_ofUnpacked]
  refine Reading.compare_eq_compare_exact ?_ ?_ ?_ ?_
  · rwa [← isFinite_eq_isFinite_unpack]
  · rwa [← isFinite_eq_isFinite_unpack]
  · rw [← Reading.ofFloat_eq_ofUnpacked]
    exact Reading.isCanonical_ofFloat x
  · rw [← Reading.ofFloat_eq_ofUnpacked]
    exact Reading.isCanonical_ofFloat y

/-- A finite float is less than another if its number is. -/
theorem lt_iff (hx : isFinite x) (hy : isFinite y) : x < y ↔ exact x < exact y := by
  rw [lt_iff_compare, compare_unpack hx hy, Option.some.injEq, compare_lt_iff_lt]

/-- A finite float is at most another if its number is. -/
theorem le_iff (hx : isFinite x) (hy : isFinite y) : x ≤ y ↔ exact x ≤ exact y := by
  simp only [le_iff_compare, compare_unpack hx hy, Option.some.injEq, exists_eq_left']
  rw [← Ordering.ne_gt_iff_isLE]
  exact compare_le_iff_le

/-- `<` on floats is stronger than `≤`, NaN included. -/
theorem float_le_of_lt (h : x < y) : x ≤ y :=
  le_iff_compare.2 ⟨.lt, lt_iff_compare.1 h, rfl⟩

/-- The positive infinity is greater than every finite number. -/
theorem infinity_compare {u : UnpackedFloat} (h : u.isFinite) :
    (UnpackedFloat.infinity .positive).compare u = some .gt := by
  cases u with
  | infinity s => cases h
  | notANumber => cases h
  | zero s => rfl
  | finite s m e hm => rfl

/-- Every finite number is greater than the negative infinity. -/
theorem compare_infinity {u : UnpackedFloat} (h : u.isFinite) :
    u.compare (UnpackedFloat.infinity .negative) = some .gt := by
  cases u with
  | infinity s => cases h
  | notANumber => cases h
  | zero s => rfl
  | finite s m e hm => cases s <;> rfl

/-- Nothing compares with NaN. -/
theorem compare_notANumber (u : UnpackedFloat) : u.compare .notANumber = none := by
  cases u with
  | notANumber => rfl
  | infinity s => cases s <;> rfl
  | zero s => rfl
  | finite s m e hm => cases s <;> rfl

/-- What lies between two numbers is a number. -/
theorem isFinite_of_le_of_le (hx : isFinite x) (hz : isFinite z) (hxy : x ≤ y) (hyz : y ≤ z) :
    isFinite y := by
  rw [isFinite_eq_isFinite_unpack] at hx hz ⊢
  obtain ⟨o, hlow, hole⟩ := le_iff_compare.1 hxy
  obtain ⟨p, hhigh, hple⟩ := le_iff_compare.1 hyz
  -- Infinity is above `z` or below `x`, and NaN is not comparable with either.
  cases hy : y.toModel.unpack with
  | infinity s =>
    rw [hy] at hlow hhigh
    cases s with
    | positive =>
      rw [infinity_compare hz, Option.some.injEq] at hhigh
      rw [← hhigh] at hple
      cases hple
    | negative =>
      rw [compare_infinity hx, Option.some.injEq] at hlow
      rw [← hlow] at hole
      cases hole
  | notANumber =>
    rw [hy] at hhigh
    cases hhigh
  | zero s => rfl
  | finite s m e hm => rfl

/-! ### Zero and one -/

/-- Zero is finite. -/
theorem isFinite_zero : isFinite 0 := by decide

/-- One is finite. -/
theorem isFinite_one : isFinite 1 := by decide

/-- The float zero stands for the number zero. -/
theorem exact_float_zero : exact 0 = 0 := by
  have hreading : Reading.ofFloat 0 = .finite false 0 leastExponent := by decide
  rw [exact, hreading, Reading.exact_zero]

/-- The float one stands for the number one. -/
theorem exact_float_one : exact 1 = 1 := by
  have hreading : Reading.ofFloat 1 = .finite false hiddenBit (-52) := by decide
  rw [exact, hreading, Reading.exact, hiddenBit]
  norm_num

/-- A float between zero and one stands for a number between zero and one. -/
theorem exact_mem_Icc (h : 0 ≤ x ∧ x ≤ 1) : 0 ≤ exact x ∧ exact x ≤ 1 := by
  have hx : isFinite x := isFinite_of_le_of_le isFinite_zero isFinite_one h.1 h.2
  rw [← exact_float_zero, ← exact_float_one]
  exact ⟨(le_iff isFinite_zero hx).1 h.1, (le_iff hx isFinite_one).1 h.2⟩

/-- The same without the bounds. -/
theorem exact_mem_Ioo (h : 0 < x ∧ x < 1) : 0 < exact x ∧ exact x < 1 := by
  have hx : isFinite x := isFinite_of_le_of_le isFinite_zero isFinite_one
    (float_le_of_lt h.1) (float_le_of_lt h.2)
  rw [← exact_float_zero, ← exact_float_one]
  exact ⟨(lt_iff isFinite_zero hx).1 h.1, (lt_iff hx isFinite_one).1 h.2⟩

end NaturalNames.Number
