import Mathlib
import NaturalNames.Proofs.Number.Operations

/-!
# `NaturalNames.Proofs.Number.Grid`: floats on a grid

Floats are stored results of operations (`unpack_add`, `unpack_mul`), so what rounding keeps, they
keep: the sum and the product of floats on a grid are on a grid (`IsOnGrid.add`, `IsOnGrid.mul`). A
float is on a fine grid if it is not too small (`isOnGrid_of_le_abs_exact`). The float of a natural
number is whole (`isOnGrid_ofNat`), positive (`unpack_ofNat_positive`) and, for a 64-bit number, not
too great (`exists_unpack_ofNat_eq_finite`), although it is not always the number itself.
-/

set_option autoImplicit false

namespace NaturalNames.Number

open Float.Model (Format UnpackedFloat)
open Float.Model.UnpackedFloat (Sign roundWithAccuracy normalize)

/-! ### Floats on a grid -/

variable {x y : Float} {g k : Int} {u : UnpackedFloat}

/-- Every float is unpacked to a number in the form of the format. -/
theorem isCanonical_unpack (x : Float) : (Reading.ofUnpacked x.toModel.unpack).IsCanonical := by
  rw [← Reading.ofFloat_eq_ofUnpacked]
  exact Reading.isCanonical_ofFloat x

/-- The float is a multiple of `2 ^ g`, unless it is no number. -/
def IsOnGrid (g : Int) (x : Float) : Prop := IsMultiple g x.toModel.unpack

/-- A float on a grid is unpacked to a number on the grid. -/
theorem IsOnGrid.onGrid (h : IsOnGrid g x) : OnGrid g x.toModel.unpack :=
  ⟨isCanonical_unpack x, h⟩

/-- Zeros, infinities and what is not a number are on every grid. -/
theorem isOnGrid_of_finite
    (h : ∀ s m e hm, x.toModel.unpack = .finite s m e hm → 2 ^ (g - e).toNat ∣ m) :
    IsOnGrid g x := by
  rw [IsOnGrid]
  cases hx : x.toModel.unpack with
  | notANumber => trivial
  | infinity s => trivial
  | zero s => trivial
  | finite s m e hm => exact h s m e hm hx

/-- All floats are multiples of the least one above zero. -/
theorem isOnGrid_leastExponent (x : Float) : IsOnGrid leastExponent x := by
  have hcanonical := isCanonical_unpack x
  apply isOnGrid_of_finite
  intro s m e hm hx
  rw [hx] at hcanonical
  exact two_pow_dvd_of_le hcanonical.2.1 m

/-- Storing a number on a grid leaves it a multiple of the grid. -/
theorem OnGrid.isMultiple_stored (h : OnGrid g u) : IsMultiple g (stored u) := by
  cases u with
  | notANumber => trivial
  | infinity s => trivial
  | zero s => trivial
  | finite s m e hm =>
    rw [stored]
    split
    next => trivial
    next => exact h.isMultiple

/-- A sum is computed on unpacked floats and then stored. -/
theorem unpack_add (x y : Float) : (x + y).toModel.unpack
    = stored (UnpackedFloat.add Format.binary64 x.toModel.unpack y.toModel.unpack) :=
  unpack_pack ((isOnGrid_leastExponent x).onGrid.add (isOnGrid_leastExponent y).onGrid).isCanonical

/-- A product is computed on unpacked floats and then stored. -/
theorem unpack_mul (x y : Float) : (x * y).toModel.unpack
    = stored (UnpackedFloat.mul Format.binary64 x.toModel.unpack y.toModel.unpack) :=
  unpack_pack ((isOnGrid_leastExponent x).onGrid.mul (isOnGrid_leastExponent y).onGrid).isCanonical

/-- A sum of floats on a grid is on the grid. -/
theorem IsOnGrid.add (hx : IsOnGrid g x) (hy : IsOnGrid g y) : IsOnGrid g (x + y) := by
  rw [IsOnGrid, unpack_add]
  exact (hx.onGrid.add hy.onGrid).isMultiple_stored

/-- A product is on the grid whose exponent is the sum of the two. -/
theorem IsOnGrid.mul (hx : IsOnGrid g x) (hy : IsOnGrid k y) : IsOnGrid (g + k) (x * y) := by
  rw [IsOnGrid, unpack_mul]
  exact (hx.onGrid.mul hy.onGrid).isMultiple_stored

/-- Only a zero is stored as zero. -/
theorem stored_eq_zero {s : Sign} (h : stored u = .zero s) : u = .zero s := by
  cases u with
  | notANumber => cases h
  | infinity t => cases h
  | zero t => exact h
  | finite t m e hm =>
    rw [stored] at h
    split at h <;> cases h

/-- A sum is not the negative zero unless its first term is. -/
theorem unpack_add_ne_negative_zero (hx : x.toModel.unpack ≠ .zero .negative) :
    (x + y).toModel.unpack ≠ .zero .negative := by
  rw [unpack_add]
  intro h
  exact add_ne_negative_zero (isCanonical_unpack x) (isCanonical_unpack y) hx (stored_eq_zero h)

/-- A float that is no smaller than a power of two is a multiple of one 53 places below. -/
theorem isOnGrid_of_le_abs_exact (h : (2 : ℚ) ^ g ≤ |exact x|) : IsOnGrid (g - 53) x := by
  have hcanonical := isCanonical_unpack x
  rw [exact, Reading.ofFloat_eq_ofUnpacked] at h
  apply isOnGrid_of_finite
  intro s m e hm hx
  rw [hx] at hcanonical h
  have hm53 : m < 2 * hiddenBit := hcanonical.1
  have habs : |(Reading.ofUnpacked (.finite s m e hm)).exact| = (m : ℚ) * 2 ^ e := by
    have hnonneg : (0 : ℚ) ≤ m * 2 ^ e := by positivity
    rw [Reading.ofUnpacked, Reading.exact, abs_mul, abs_of_nonneg hnonneg]
    cases s <;> simp [Reading.isNegative]
  rw [habs] at h
  -- A mantissa has 53 bits, so a number of this size has an exponent that is not much less.
  have hlt : (2 : ℚ) ^ g < 2 ^ (53 + e) := by
    calc (2 : ℚ) ^ g ≤ m * 2 ^ e := h
      _ < 2 ^ (53 : Int) * 2 ^ e := by
        apply mul_lt_mul_of_pos_right _ (zpow_pos (by norm_num) e)
        rw [hiddenBit_eq] at hm53
        exact_mod_cast hm53
      _ = 2 ^ (53 + e) := (zpow_add₀ (by norm_num) _ _).symm
  have hexponent : g < 53 + e := (zpow_lt_zpow_iff_right₀ (by norm_num)).1 hlt
  exact two_pow_dvd_of_le (by omega) m

/-- The zeros are on every grid. -/
theorem isOnGrid_of_exact_eq_zero (h : exact x = 0) : IsOnGrid g x := by
  rw [exact, Reading.ofFloat_eq_ofUnpacked] at h
  apply isOnGrid_of_finite
  intro s m e hm hx
  rw [hx] at h
  cases s with
  | positive => exact absurd h (Reading.exact_pos hm).ne'
  | negative => exact absurd h (Reading.exact_neg hm).ne

/-! ### Natural numbers -/

/-- A number of less than 53 bits is converted in one step. -/
theorem ofNat_eq_mul {n : Nat} (h : n < 2 ^ 53) : Float.ofNat n = n.toUInt64.toFloat * 1 := by
  show Float.ofScientific n false 0 = _
  rw [Float.ofScientific, dif_pos ⟨h, by decide⟩]
  rfl

/-- A greater number is rounded once. -/
theorem unpack_ofNat_of_ge {n : Nat} (h : 2 ^ 53 ≤ n) :
    (Float.ofNat n).toModel.unpack = UnpackedFloat.unpack Format.binary64
      (UnpackedFloat.pack Format.binary64
        (roundWithAccuracy Format.binary64 .positive (n * 2 ^ 53) (-53) .exact)) := by
  have hlog : ¬ (0 : Int) < -((2 ^ Format.binary64.exponentBits : Int) + n.log2) := by
    show ¬ (0 : Int) < -((2 ^ 11 : Int) + n.log2)
    omega
  -- From 53 bits on the conversion takes the way of decimal texts, with an exponent of ten of zero.
  have hscientific : UnpackedFloat.ofScientific Format.binary64 n 0
      = roundWithAccuracy Format.binary64 .positive (n * 2 ^ 53) (-53) .exact := by
    rw [UnpackedFloat.ofScientific, dif_neg (by omega), if_neg (by decide), if_neg hlog,
      if_pos (Int.le_refl 0), mul_finite, Nat.shiftLeft_eq]
    show roundWithAccuracy Format.binary64 .positive (n * 2 ^ 53 * 10 ^ 0) (-53 + 0) .exact = _
    rw [Nat.pow_zero, Nat.mul_one, Int.add_zero]
  have hofNat : Float.ofNat n = Float.ofModel (.ofScientific n 0) := by
    show Float.ofScientific n false 0 = _
    rw [Float.ofScientific, dif_neg (by omega)]
    rfl
  rw [hofNat, ← hscientific]
  rfl

/-- A number below the greatest power of two is stored as it is. -/
theorem stored_eq_self (h : IsBelow (leastExponent + 2046) u) : stored u = u := by
  cases u with
  | notANumber => rfl
  | infinity s => rfl
  | zero s => rfl
  | finite s m e hm =>
    have hlt : m.log2 + e < leastExponent + 2046 := h
    rw [stored, if_neg (by omega)]

/-- The float of a number up to 53 bits that is not zero, before it is multiplied by one. -/
theorem exists_unpack_toFloat {n : Nat} (hn : n ≠ 0) (h : n < 2 ^ 53) :
    ∃ m e hm, n.toUInt64.toFloat.toModel.unpack = .finite .positive m e hm ∧
      2 ^ (0 - e).toNat ∣ m ∧ m.log2 + e < 54 := by
  have hlog : n.log2 < 53 := (Nat.log2_lt hn).2 h
  have htoNat : n.toUInt64.toNat = n := Nat.mod_eq_of_lt (Nat.lt_trans h (by decide))
  obtain ⟨m, e, hm, heq⟩ := exists_round_eq_finite .positive (e := 0) hn
    (by unfold leastExponent; omega)
  have hgrid : OnGrid 0 (UnpackedFloat.round Format.binary64 .positive n 0) :=
    onGrid_round hn (Nat.one_dvd n)
  have hbelow : IsBelow (53 + 1) (UnpackedFloat.round Format.binary64 .positive n 0) :=
    isBelow_round hn (by omega) (by decide)
  -- No bit is in excess, so that rounding changes the form and not the number.
  have hround : UnpackedFloat.ofUInt64 Format.binary64 n.toUInt64
      = UnpackedFloat.round Format.binary64 .positive n 0 := by
    show normalize Format.binary64 (n.toUInt64.toNat : Int) 0 .positive = _
    rw [htoNat, normalize_eq, if_neg (by omega), if_neg (by omega), Int.natAbs_natCast]
  rw [heq] at hgrid hbelow hround
  refine ⟨m, e, hm, ?_, hgrid.isMultiple, hbelow⟩
  show UnpackedFloat.unpack Format.binary64 (UnpackedFloat.pack Format.binary64
    (UnpackedFloat.ofUInt64 Format.binary64 n.toUInt64)) = _
  rw [hround, unpack_pack hgrid.isCanonical, stored_eq_self]
  show m.log2 + e < leastExponent + 2046
  have hlt : m.log2 + e < 53 + 1 := hbelow
  unfold leastExponent
  omega

/-- The float of a natural number that is not zero is a rounded whole number. -/
theorem exists_unpack_ofNat {n : Nat} (hn : n ≠ 0) :
    ∃ m e, (Float.ofNat n).toModel.unpack
        = stored (roundWithAccuracy Format.binary64 .positive m e .exact) ∧
      hiddenBit ≤ m ∧ 2 ^ (0 - e).toNat ∣ m ∧ e < 65 ∧ (n < 2 ^ 64 → m.log2 + e < 65) := by
  rcases Nat.lt_or_ge n (2 ^ 53) with h | h
  · obtain ⟨m, e, hm, heq, hdvd, hlog⟩ := exists_unpack_toFloat hn h
    have hone : (1 : Float).toModel.unpack = .finite .positive (2 ^ 52) (-52) (by decide) := rfl
    -- The product with one moves the mantissa by 52 bits and the exponent back by as many.
    have hproduct : 2 ^ (0 + 0 - (e + -52)).toNat ∣ m * 2 ^ 52 :=
      dvd_mul_of_dvd hdvd (Nat.dvd_refl _)
    refine ⟨m * 2 ^ 52, e + -52, ?_, ?_, hproduct, by omega, fun _ => ?_⟩
    · rw [ofNat_eq_mul h, unpack_mul, heq, hone, mul_finite]
      rfl
    · rw [hiddenBit_eq]
      exact Nat.le_mul_of_pos_left _ hm
    · rw [log2_mul_two_pow (by omega)]
      omega
  · -- The conversion itself moves the number by 53 bits and rounds.
    have hhidden : hiddenBit ≤ n * 2 ^ 53 := by
      rw [hiddenBit_eq]
      omega
    refine ⟨n * 2 ^ 53, -53, ?_, hhidden, Nat.dvd_mul_left _ _, by omega, fun hlt => ?_⟩
    · rw [unpack_ofNat_of_ge h, unpack_pack (isCanonical_roundWithAccuracy _ _ fun _ => hhidden)]
    · have hlog : n.log2 < 64 := (Nat.log2_lt hn).2 hlt
      rw [log2_mul_two_pow hn]
      omega

/-- Every natural number is a multiple of one after conversion, too. -/
theorem isOnGrid_ofNat (n : Nat) : IsOnGrid 0 (Float.ofNat n) := by
  rcases Nat.eq_zero_or_pos n with rfl | hpos
  · show IsMultiple 0 (.zero .positive)
    trivial
  · obtain ⟨m, e, heq, hhidden, hdvd, -, -⟩ := exists_unpack_ofNat (n := n) (by omega)
    rw [IsOnGrid, heq]
    exact OnGrid.isMultiple_stored ⟨isCanonical_roundWithAccuracy _ _ fun _ => hhidden,
      isMultiple_roundWithAccuracy _ hdvd⟩

/-- The float of a natural number that is not zero is a stored positive number. That of a 64-bit
number is below `2 ^ 66`. -/
theorem exists_unpack_ofNat_eq_stored {n : Nat} (hn : n ≠ 0) :
    ∃ m e hm, (Float.ofNat n).toModel.unpack = stored (.finite .positive m e hm) ∧
      (n < 2 ^ 64 → m.log2 + e < 66) := by
  obtain ⟨m, e, heq, hhidden, hdvd, -, hlog⟩ := exists_unpack_ofNat hn
  have hm := ne_zero_of_hiddenBit_le hhidden
  have hwhole : 0 ≤ m.log2 + e := le_log2_add_of_dvd hm hdvd
  obtain ⟨r, e', hr, hround⟩ := exists_roundWithAccuracy_eq_finite .positive .exact
    (e := e) hm (by unfold leastExponent; omega)
  refine ⟨r, e', hr, heq.trans (congrArg stored hround), ?_⟩
  intro hlt
  have hbelow : IsBelow (65 + 1) (roundWithAccuracy Format.binary64 .positive m e .exact) :=
    isBelow_roundWithAccuracy _ _ (hlog hlt) (by decide)
  rw [hround] at hbelow
  exact hbelow

/-- A natural number above zero is converted to a positive float or to infinity. -/
theorem unpack_ofNat_positive {n : Nat} (hn : n ≠ 0) :
    (Float.ofNat n).toModel.unpack = .infinity .positive ∨
      ∃ m e hm, (Float.ofNat n).toModel.unpack = .finite .positive m e hm := by
  obtain ⟨m, e, hm, heq, -⟩ := exists_unpack_ofNat_eq_stored hn
  rw [heq, stored]
  split
  next => exact .inl rfl
  next => exact .inr ⟨m, e, hm, rfl⟩

/-- A natural number above zero that fits a word is converted to a finite float. -/
theorem exists_unpack_ofNat_eq_finite {n : Nat} (hn : n ≠ 0) (h : n < 2 ^ 64) :
    ∃ m e hm, (Float.ofNat n).toModel.unpack = .finite .positive m e hm ∧ m.log2 + e < 66 := by
  obtain ⟨m, e, hm, heq, hlog⟩ := exists_unpack_ofNat_eq_stored hn
  have hlt : m.log2 + e < 66 := hlog h
  refine ⟨m, e, hm, ?_, hlt⟩
  rw [heq, stored_eq_self]
  show m.log2 + e < leastExponent + 2046
  unfold leastExponent
  omega

end NaturalNames.Number
