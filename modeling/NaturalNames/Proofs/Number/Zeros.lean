import Mathlib
import NaturalNames.Proofs.Number.Grid

/-!
# `NaturalNames.Proofs.Number.Zeros`: quotients that start from either zero

A number taken from `-0` or from `0` and divided by a natural number: what is the difference? The
quotients are the same or the two zeros (`sameNumber_sub_div`).

The total order tells the zeros apart. Quotients from `-0` are still in the order of the quotients
from `0` as long as a quotient is zero only because it was taken of `0`: then each zero stands for
one number (`PairedZeros`). That holds of numbers on a grid, divided by 64-bit numbers
(`pairedZeros_sub_div`), because they are not so small that their quotients are rounded to zero.
-/

set_option autoImplicit false

namespace NaturalNames.Number

open Float.Model (Format UnpackedFloat)
open Float.Model.UnpackedFloat (Sign)

variable {x y : Float} {g : Int}

/-! ### The two zeros -/

/-- Floats that are unpacked alike are the same. -/
theorem eq_of_unpack_eq (h : x.toModel.unpack = y.toModel.unpack) : x = y := by
  have hx : Float.ofModel (.pack x.toModel.unpack) = x := ofBits_toBits x
  have hy : Float.ofModel (.pack y.toModel.unpack) = y := ofBits_toBits y
  rw [← hx, ← hy, h]

/-- The float zero is the positive zero. -/
theorem unpack_zero : (0 : Float).toModel.unpack = .zero .positive := rfl

/-- The opposite of the float zero is the negative zero. -/
theorem unpack_negative_zero : (-0 : Float).toModel.unpack = .zero .negative := rfl

/-- Two floats compare equal to zero. -/
theorem eq_zero_of_beq (h : (x == 0) = true) : x = 0 ∨ x = -0 := by
  have hcompare : (x.toModel.unpack.compare (.zero .positive) == some .eq) = true := h
  cases hx : x.toModel.unpack with
  | zero s =>
    cases s with
    | positive => exact .inl (eq_of_unpack_eq hx)
    | negative => exact .inr (eq_of_unpack_eq hx)
  -- No other float equals zero.
  | notANumber =>
    rw [hx] at hcompare
    cases hcompare
  | infinity s =>
    rw [hx] at hcompare
    cases s <;> cases hcompare
  | finite s m e hm =>
    rw [hx] at hcompare
    cases s <;> cases hcompare

/-- The negative zero stands for the number zero. -/
theorem exact_float_negative_zero : exact (-0) = 0 := by
  have hreading : Reading.ofFloat (-0) = .finite true 0 leastExponent := by decide
  rw [exact, hreading, Reading.exact_zero]

/-- The floats are the same, or the two zeros. -/
def SameNumber (x y : Float) : Prop := x = y ∨ x = -0 ∧ y = 0

/-- It makes a difference from which zero a float is taken if it is `0`. -/
theorem negative_zero_sub (x : Float) : -0 - x = 0 - x ∨ x = 0 := by
  have hsub : UnpackedFloat.sub Format.binary64 (.zero .negative) x.toModel.unpack
      = UnpackedFloat.sub Format.binary64 (.zero .positive) x.toModel.unpack ∨
        x.toModel.unpack = .zero .positive := by
    cases x.toModel.unpack with
    | notANumber => exact .inl rfl
    | infinity s => exact .inl rfl
    | zero s =>
      cases s with
      | positive => exact .inr rfl
      | negative => exact .inl rfl
    | finite s m e hm => exact .inl rfl
  -- Only the positive zero tells the two zeros apart.
  rcases hsub with h | h
  · refine .inl ?_
    show Float.ofModel
      (.pack (UnpackedFloat.sub Format.binary64 (.zero .negative) x.toModel.unpack))
      = Float.ofModel (.pack (UnpackedFloat.sub Format.binary64 (.zero .positive) x.toModel.unpack))
    rw [h]
  · exact .inr (eq_of_unpack_eq h)

/-- A number less itself is `0`, and never `-0`. -/
theorem sub_self_of_isFinite (h : isFinite x = true) : x - x = 0 := by
  rw [isFinite_eq_isFinite_unpack] at h
  have hsub : UnpackedFloat.sub Format.binary64 x.toModel.unpack x.toModel.unpack
      = .zero .positive := by
    cases hunpack : x.toModel.unpack with
    | notANumber => simp [hunpack, UnpackedFloat.isFinite] at h
    | infinity s => simp [hunpack, UnpackedFloat.isFinite] at h
    | zero s => cases s <;> rfl
    | finite s m e hm =>
      -- The mantissas cancel at the common exponent.
      simp only [UnpackedFloat.sub, Int.sub_self, UnpackedFloat.normalize]
      rfl
  show Float.ofModel (.pack (UnpackedFloat.sub Format.binary64 x.toModel.unpack x.toModel.unpack))
    = 0
  rw [hsub]
  rfl

/-- Zero divided by a number above zero is zero and has its sign. -/
theorem unpack_div_ofNat_of_zero {s : Sign} {n : Nat} (hx : x.toModel.unpack = .zero s)
    (hn : n ≠ 0) : (x / Float.ofNat n).toModel.unpack = .zero s := by
  have hdiv : UnpackedFloat.div Format.binary64 (.zero s) (Float.ofNat n).toModel.unpack
      = .zero s := by
    rcases unpack_ofNat_positive hn with h | ⟨m, e, hm, h⟩
    · rw [h]
      cases s <;> rfl
    · rw [h]
      cases s <;> rfl
  show UnpackedFloat.unpack Format.binary64 (UnpackedFloat.pack Format.binary64
    (UnpackedFloat.div Format.binary64 x.toModel.unpack (Float.ofNat n).toModel.unpack)) = _
  rw [hx, hdiv, unpack_pack (isCanonical_zero s)]
  rfl

/-- Nothing, taken from either zero and divided by a count, is that zero. -/
theorem zero_div_ofNat {n : Nat} (hn : n ≠ 0) :
    (-0 - 0) / Float.ofNat n = -0 ∧ (0 - 0) / Float.ofNat n = 0 := by
  constructor
  · apply eq_of_unpack_eq
    rw [unpack_negative_zero]
    exact unpack_div_ofNat_of_zero rfl hn
  · apply eq_of_unpack_eq
    rw [unpack_zero]
    exact unpack_div_ofNat_of_zero rfl hn

/-- It does not matter to the number which zero another one is taken from before the division. -/
theorem sameNumber_sub_div (x : Float) {n : Nat} (hn : n ≠ 0) :
    SameNumber ((-0 - x) / Float.ofNat n) ((0 - x) / Float.ofNat n) := by
  rcases negative_zero_sub x with h | rfl
  · exact .inl (by rw [h])
  · exact .inr (zero_div_ofNat hn)

/-- The floats are the same and no zero, or they are the two zeros. -/
def PairedZeros (x y : Float) : Prop := x = y ∧ x ≠ 0 ∧ x ≠ -0 ∨ x = -0 ∧ y = 0

/-- Paired floats are the same number. -/
theorem PairedZeros.sameNumber (h : PairedZeros x y) : SameNumber x y :=
  h.imp_left fun h => h.1

/-- A quotient of a number that is not too small by a 64-bit number is not zero. -/
theorem div_ne_zero_of_isOnGrid {n : Nat} (hx : IsOnGrid g x) (hg : leastExponent + 119 ≤ g)
    (hzero : ∀ s, x.toModel.unpack ≠ .zero s) (hn : n ≠ 0) (hlt : n < 2 ^ 64) (s : Sign) :
    (x / Float.ofNat n).toModel.unpack ≠ .zero s := by
  obtain ⟨k, d, hk, hofNat, hlog⟩ := exists_unpack_ofNat_eq_finite hn hlt
  show UnpackedFloat.unpack Format.binary64 (UnpackedFloat.pack Format.binary64
    (UnpackedFloat.div Format.binary64 x.toModel.unpack (Float.ofNat n).toModel.unpack)) ≠ _
  rw [hofNat]
  rw [IsOnGrid] at hx
  cases hunpack : x.toModel.unpack with
  | notANumber =>
    show UnpackedFloat.unpack Format.binary64 (UnpackedFloat.pack Format.binary64 .notANumber) ≠ _
    rw [unpack_pack (u := .notANumber) trivial]
    intro h
    cases h
  | infinity t =>
    show UnpackedFloat.unpack Format.binary64
      (UnpackedFloat.pack Format.binary64 (.infinity (t / .positive))) ≠ _
    rw [unpack_pack (u := .infinity _) trivial]
    intro h
    cases h
  | zero t => exact absurd hunpack (hzero t)
  | finite t m e hm =>
    rw [hunpack] at hx
    -- The number is at least the grid and the divisor below `2 ^ 64`, so the quotient is a normal
    -- number.
    have hlow : g ≤ m.log2 + e := le_log2_add_of_dvd (by omega) hx
    obtain ⟨r, e', hr, heq, hcanonical⟩ :=
      exists_div_eq_finite t .positive (d := e) (e := d) hm hk (by omega)
    rw [heq, unpack_pack (u := .finite _ r e' hr) hcanonical]
    intro h
    cases stored_eq_zero h

/-- What is not zero has its opposite as the difference from zero. -/
theorem unpack_zero_sub (hzero : ∀ s, x.toModel.unpack ≠ .zero s) :
    (0 - x).toModel.unpack = stored x.toModel.unpack.neg := by
  have hcanonical := isCanonical_unpack x
  show UnpackedFloat.unpack Format.binary64 (UnpackedFloat.pack Format.binary64
    (UnpackedFloat.sub Format.binary64 (.zero .positive) x.toModel.unpack)) = _
  cases hunpack : x.toModel.unpack with
  | notANumber => rfl
  | infinity s => exact unpack_pack (u := .infinity (-s)) trivial
  | zero s => exact absurd hunpack (hzero s)
  | finite s m e hm =>
    rw [hunpack] at hcanonical
    exact unpack_pack (u := .finite (-s) m e hm) hcanonical

/-- The opposite of a float on a grid is on the grid. -/
theorem isOnGrid_zero_sub (hx : IsOnGrid g x) (hzero : ∀ s, x.toModel.unpack ≠ .zero s) :
    IsOnGrid g (0 - x) := by
  have hgrid := hx.onGrid
  rw [IsOnGrid, unpack_zero_sub hzero]
  apply OnGrid.isMultiple_stored
  cases hunpack : x.toModel.unpack with
  | notANumber => exact ⟨trivial, trivial⟩
  | infinity s => exact ⟨trivial, trivial⟩
  | zero s => exact absurd hunpack (hzero s)
  | finite s m e hm =>
    rw [hunpack] at hgrid
    exact ⟨hgrid.isCanonical, hgrid.isMultiple⟩

/-- The opposite of what is not zero is not zero. -/
theorem unpack_zero_sub_ne_zero (hzero : ∀ s, x.toModel.unpack ≠ .zero s) (s : Sign) :
    (0 - x).toModel.unpack ≠ .zero s := by
  rw [unpack_zero_sub hzero]
  intro h
  have hneg := stored_eq_zero h
  -- The opposite of each kind is of the same kind.
  cases hunpack : x.toModel.unpack with
  | notANumber =>
    rw [hunpack] at hneg
    cases hneg
  | infinity t =>
    rw [hunpack] at hneg
    cases hneg
  | zero t => exact hzero t hunpack
  | finite t m e hm =>
    rw [hunpack] at hneg
    cases hneg

/-- On a grid that is not too fine the quotients from the two zeros are paired. -/
theorem pairedZeros_sub_div {n : Nat} (hx : IsOnGrid g x) (hg : leastExponent + 119 ≤ g)
    (hne : x.toModel.unpack ≠ .zero .negative) (hn : n ≠ 0) (hlt : n < 2 ^ 64) :
    PairedZeros ((-0 - x) / Float.ofNat n) ((0 - x) / Float.ofNat n) := by
  rcases negative_zero_sub x with hsub | rfl
  · by_cases hpositive : x.toModel.unpack = .zero .positive
    · cases eq_of_unpack_eq (y := 0) hpositive
      exact .inr (zero_div_ofNat hn)
    · -- What is not zero is subtracted from either zero alike, and the quotient is not zero.
      have hzero : ∀ s, x.toModel.unpack ≠ .zero s := by
        intro s
        cases s with
        | positive => exact hpositive
        | negative => exact hne
      have hquotient := div_ne_zero_of_isOnGrid (isOnGrid_zero_sub hx hzero) hg
        (unpack_zero_sub_ne_zero hzero) hn hlt
      rw [hsub]
      refine .inl ⟨rfl, ?_, ?_⟩
      · intro h
        exact hquotient .positive (by rw [h, unpack_zero])
      · intro h
        exact hquotient .negative (by rw [h, unpack_negative_zero])
  · exact .inr (zero_div_ofNat hn)

/-! ### The zeros in the total order -/

/-- Floats with the same place in the total order are the same. -/
theorem orderKey_injective (h : orderKey x = orderKey y) : x = y := by
  have hx : x.toBits.toNat < 2 ^ 64 := x.toBits.toBitVec.isLt
  have hy : y.toBits.toNat < 2 ^ 64 := y.toBits.toBitVec.isLt
  have hbits : x.toBits.toNat = y.toBits.toNat := by
    unfold orderKey at h
    dsimp only at h
    rw [signBit_eq] at h
    split at h <;> split at h <;> omega
  rw [← ofBits_toBits x, ← ofBits_toBits y, UInt64.toNat_inj.1 hbits]

/-- The positive zero stands at the sign bit in the total order. -/
theorem orderKey_zero : orderKey 0 = signBit := by decide

/-- The negative zero stands right before the positive one in the total order. -/
theorem orderKey_negative_zero : orderKey (-0) = signBit - 1 := by decide

/-- No float is between the two zeros. -/
theorem compare_orderKey_zeros (h : x ≠ 0) (h' : x ≠ -0) :
    totalCompare x (-0) = totalCompare x 0 ∧ totalCompare (-0) x = totalCompare 0 x := by
  have hkey : orderKey x ≠ signBit := fun hkey =>
    h (orderKey_injective (hkey.trans orderKey_zero.symm))
  have hkey' : orderKey x ≠ signBit - 1 := fun hkey =>
    h' (orderKey_injective (hkey.trans orderKey_negative_zero.symm))
  show compare (orderKey x) (orderKey (-0)) = compare (orderKey x) (orderKey 0) ∧
    compare (orderKey (-0)) (orderKey x) = compare (orderKey 0) (orderKey x)
  rw [orderKey_zero, orderKey_negative_zero]
  rw [signBit_eq] at *
  -- Between the two zeros there is no place, so another float is on one side of both.
  rcases Nat.lt_or_gt_of_ne hkey with hlt | hgt
  · rw [Nat.compare_eq_lt.2 hlt, Nat.compare_eq_gt.2 hlt, Nat.compare_eq_lt.2 (by omega),
      Nat.compare_eq_gt.2 (by omega)]
    exact ⟨rfl, rfl⟩
  · rw [Nat.compare_eq_gt.2 hgt, Nat.compare_eq_lt.2 hgt, Nat.compare_eq_gt.2 (by omega),
      Nat.compare_eq_lt.2 (by omega)]
    exact ⟨rfl, rfl⟩

/-- Paired floats have one order. -/
theorem PairedZeros.totalCompare_eq {x' y' : Float} (h : PairedZeros x y) (h' : PairedZeros x' y') :
    totalCompare x x' = totalCompare y y' := by
  rcases h with ⟨rfl, hzero, hnegative⟩ | ⟨rfl, rfl⟩
  · rcases h' with ⟨rfl, -, -⟩ | ⟨rfl, rfl⟩
    · rfl
    · exact (compare_orderKey_zeros hzero hnegative).1
  · rcases h' with ⟨rfl, hzero, hnegative⟩ | ⟨rfl, rfl⟩
    · exact (compare_orderKey_zeros hzero hnegative).2
    · show compare (orderKey (-0)) (orderKey (-0)) = compare (orderKey 0) (orderKey 0)
      rw [Std.ReflOrd.compare_self, Std.ReflOrd.compare_self]

end NaturalNames.Number
