import Mathlib
import NaturalNames.Proofs.Number.Monotone

/-!
# `NaturalNames.Proofs.Number.Shares`: shares of counts in floats

The float of a natural number is the number itself, rounded (`roundsTo_ofNat`), so it keeps the
order (`float_ofNat_le_ofNat`). Divided by the float of a 64-bit number, which is neither zero nor
infinite, counts up to that number give floats from zero to one in their order
(`float_share_le_share`, `float_share_le_one`), though several counts may give the same one.
-/

set_option autoImplicit false

namespace NaturalNames.Number

open Float.Model (Format UnpackedFloat)
open Float.Model.UnpackedFloat

/-! ### Counts -/

/-- A positive whole mantissa of full length or more is rounded to the nearest float. -/
theorem roundsTo_of_hiddenBit_le {m : Nat} (e : Int) (h : hiddenBit ≤ m) :
    RoundsTo (m * 2 ^ e) (Reading.ofUnpacked
      (stored (roundWithAccuracy Format.binary64 .positive m e .exact))).place := by
  have hpos : (0 : ℚ) < m := Nat.cast_pos.2 (Nat.pos_of_ne_zero (ne_zero_of_hiddenBit_le h))
  have hrounds : RoundsTo (signedRat false (m * 2 ^ e)) (Reading.ofUnpacked
      (stored (roundWithAccuracy Format.binary64 .positive m e .exact))).place :=
    roundsTo_roundWithAccuracy .positive hpos (IsAt.whole m) fun _ => h
  rwa [signedRat, if_neg (by decide), one_mul] at hrounds

/-- Multiplying by one changes nothing. -/
theorem place_mul_one {x : Float} {m : Nat} {e : Int} {hm : 0 < m}
    (h : x.toModel.unpack = .finite .positive m e hm) : place (x * 1) = place x := by
  have hfull : hiddenBit ≤ m * 2 ^ 52 := by
    rw [hiddenBit_eq]
    exact Nat.le_mul_of_pos_left _ hm
  have hone : (1 : Float).toModel.unpack = .finite .positive (2 ^ 52) (-52) (by decide) := rfl
  have hproduct : (x * 1).toModel.unpack
      = stored (roundWithAccuracy Format.binary64 .positive (m * 2 ^ 52) (e + -52) .exact) := by
    rw [unpack_mul, h, hone, mul_finite]
    rfl
  have hscale : ((m * 2 ^ 52 : Nat) : ℚ) * 2 ^ (e + -52) = exact x := by
    rw [exact_eq_exact_unpack, h, zpow_add₀ two_ne_zero]
    show _ = (if (false : Bool) then (-1 : ℚ) else 1) * (m * 2 ^ e)
    push_cast
    field_simp
    norm_num
  have hrounds := roundsTo_of_hiddenBit_le (e + -52) hfull
  rw [hscale, ← hproduct, ← place_eq_place_unpack] at hrounds
  -- Both are the place that the number of `x` is rounded to.
  have hfinite : isFinite x = true := by
    rw [isFinite_eq_isFinite_unpack, h]
    rfl
  have hexact := roundsTo_exact (isFinite_eq_isFinite_unpack x ▸ hfinite)
    (isPlaced_unpack (isNaN_eq_false_of_isFinite hfinite))
  rw [← exact_eq_exact_unpack, ← place_eq_place_unpack] at hexact
  exact le_antisymm (hrounds.place_le hexact le_rfl) (hexact.place_le hrounds le_rfl)

/-- A word is converted to the float next to it. -/
theorem roundsTo_toFloat {n : Nat} (h : n < 2 ^ 64) : RoundsTo n (place n.toUInt64.toFloat) := by
  have htoNat : n.toUInt64.toNat = n := Nat.mod_eq_of_lt h
  have hgrid : OnGrid 0 (normalize Format.binary64 n 0 .positive) :=
    onGrid_normalize (Int.one_dvd _)
  have hunpack : n.toUInt64.toFloat.toModel.unpack
      = stored (normalize Format.binary64 n 0 .positive) := by
    rw [← unpack_pack hgrid.isCanonical]
    show UnpackedFloat.unpack Format.binary64 (UnpackedFloat.pack Format.binary64
      (normalize Format.binary64 (n.toUInt64.toNat : Int) 0 .positive)) = _
    rw [htoNat]
  have hrounds := roundsTo_normalize n 0 .positive
  rwa [← hunpack, ← place_eq_place_unpack, zpow_zero, mul_one, Int.cast_natCast] at hrounds

/-- The float of a natural number is the number rounded. -/
theorem roundsTo_ofNat (n : Nat) : RoundsTo n (place (Float.ofNat n)) := by
  rcases Nat.lt_or_ge n (2 ^ 53) with hlt | hge
  · -- Below 53 bits a number is converted as a word and multiplied by one.
    rcases Nat.eq_zero_or_pos n with rfl | hpos
    · have hzero : place (Float.ofNat 0) = 0 := by decide
      rw [hzero, Nat.cast_zero]
      exact .zero
    · obtain ⟨m, e, hm, hunpack, -, -⟩ := exists_unpack_toFloat hpos.ne' hlt
      rw [ofNat_eq_mul hlt, place_mul_one hunpack]
      exact roundsTo_toFloat (hlt.trans (by decide))
  · -- From 53 bits on it is rounded where it stands.
    have hfull : hiddenBit ≤ n * 2 ^ 53 := by
      rw [hiddenBit_eq]
      omega
    have hscale : ((n * 2 ^ 53 : Nat) : ℚ) * 2 ^ (-53 : Int) = n := by
      rw [Nat.cast_mul, zpow_neg]
      norm_num [mul_assoc]
    have hrounds := roundsTo_of_hiddenBit_le (-53) hfull
    rwa [hscale, ← unpack_pack (isCanonical_roundWithAccuracy _ _ fun _ => hfull),
      ← unpack_ofNat_of_ge hge, ← place_eq_place_unpack] at hrounds

/-- Natural numbers are converted to numbers. -/
theorem isNaN_ofNat (n : Nat) : (Float.ofNat n).isNaN = false := by
  show (Float.ofNat n).toModel.unpack.isNaN = false
  rcases Nat.eq_zero_or_pos n with rfl | hpos
  · rfl
  · rcases unpack_ofNat_positive hpos.ne' with h | ⟨m, e, hm, h⟩
    · rw [h]
      rfl
    · rw [h]
      rfl

/-- Conversion keeps the order of natural numbers. -/
theorem float_ofNat_le_ofNat {m n : Nat} (h : m ≤ n) : Float.ofNat m ≤ Float.ofNat n := by
  rw [le_iff_place (isNaN_ofNat m) (isNaN_ofNat n)]
  exact (roundsTo_ofNat m).place_le (roundsTo_ofNat n) (Nat.cast_le.2 h)

/-! ### Shares -/

/-- What is rounded and stored is a number. -/
theorem isNaN_stored_roundWithAccuracy (sign : Sign) (m : Nat) (e : Int) (accuracy : Accuracy) :
    (stored (roundWithAccuracy Format.binary64 sign m e accuracy)).isNaN = false := by
  have hparts : ∀ (r : Nat) (d : Int), (stored (ofParts sign r d)).isNaN = false := by
    intro r d
    rw [ofParts]
    split
    · rfl
    · rw [stored]
      split <;> rfl
  rw [roundWithAccuracy_eq_ofParts]
  split <;> exact hparts _ _

section

variable {n : Nat}

/-- Only a division of zero by zero, or of infinity by infinity, gives NaN. -/
theorem isNaN_share (hn : n ≠ 0) (hlt : n < 2 ^ 64) (m : Nat) :
    (Float.ofNat m / Float.ofNat n).isNaN = false := by
  obtain ⟨k, e, hk, hunpack, -⟩ := exists_unpack_ofNat_eq_finite hn hlt
  show (Float.ofNat m / Float.ofNat n).toModel.unpack.isNaN = false
  rw [unpack_div, hunpack]
  rcases Nat.eq_zero_or_pos m with rfl | hm
  · rfl
  · rcases unpack_ofNat_positive hm.ne' with hm | ⟨j, d, hj, hm⟩
    · rw [hm]
      rfl
    · obtain ⟨q, e', accuracy, hcore, -⟩ := divCore_isAt (d := d) (e := e) hj hk
      rw [hm, UnpackedFloat.div, hcore]
      exact isNaN_stored_roundWithAccuracy _ _ _ _

/-- Counts have shares in their order. -/
theorem float_share_le_share (hn : n ≠ 0) (hlt : n < 2 ^ 64) {m m' : Nat} (h : m ≤ m') :
    Float.ofNat m / Float.ofNat n ≤ Float.ofNat m' / Float.ofNat n :=
  float_div_le_div (float_ofNat_le_ofNat h) (isNaN_share hn hlt m) (isNaN_share hn hlt m')

/-- A share is not negative in floats. -/
theorem zero_le_float_share (hn : n ≠ 0) (hlt : n < 2 ^ 64) (m : Nat) :
    0 ≤ Float.ofNat m / Float.ofNat n := by
  have hzero : Float.ofNat 0 / Float.ofNat n = 0 :=
    eq_of_unpack_eq (unpack_div_ofNat_of_zero rfl hn)
  rw [← hzero]
  exact float_share_le_share hn hlt (Nat.zero_le m)

/-- The share of the whole is one at most in floats. -/
theorem float_share_self_le_one (hn : n ≠ 0) (hlt : n < 2 ^ 64) :
    Float.ofNat n / Float.ofNat n ≤ 1 := by
  obtain ⟨k, e, hk, hunpack, -⟩ := exists_unpack_ofNat_eq_finite hn hlt
  have hone : (1 : Float).isNaN = false := by decide
  have hself : Reading.exact (.finite false k e) / (k * 2 ^ e) = 1 := by
    have hpos : (0 : ℚ) < k * 2 ^ e := mul_pos (Nat.cast_pos.2 hk) (zpow_pos two_pos e)
    rw [Reading.exact, if_neg (by decide), one_mul, div_self hpos.ne']
  -- The exact quotient is one, and what it is rounded to is not beyond the place of one.
  have hquotient : RoundsTo 1 (place (Float.ofNat n / Float.ofNat n)) := by
    rw [place_eq_place_unpack, unpack_div, hunpack, ← hself]
    exact roundsTo_div (u := .finite .positive k e hk) hk rfl
  have hplace : RoundsTo 1 (place 1) := by
    rw [← exact_float_one, place_eq_place_unpack, exact_eq_exact_unpack]
    exact roundsTo_exact rfl (isPlaced_unpack hone)
  rw [le_iff_place (isNaN_share hn hlt n) hone]
  exact hquotient.place_le hplace le_rfl

/-- Counts up to a number have shares of it up to one. -/
theorem float_share_le_one (hn : n ≠ 0) (hlt : n < 2 ^ 64) {m : Nat} (h : m ≤ n) :
    Float.ofNat m / Float.ofNat n ≤ 1 := by
  have hone : (1 : Float).isNaN = false := by decide
  have hshare := float_share_le_share hn hlt h
  have hself := float_share_self_le_one hn hlt
  rw [le_iff_place (isNaN_share hn hlt _) (isNaN_share hn hlt _)] at hshare
  rw [le_iff_place (isNaN_share hn hlt _) hone] at hself ⊢
  exact hshare.trans hself

end

end NaturalNames.Number
