import Mathlib
import NaturalNames.Proofs.Number.Nearest
import NaturalNames.Proofs.Number.Zeros

/-!
# `NaturalNames.Proofs.Number.Monotone`: floats keep the order in differences and quotients

A difference of floats and a quotient by the float of a natural number are exact results that are
rounded (`roundsTo_sub`, `roundsTo_div`), and rounding keeps the order (`RoundsTo.place_le`). What
is no number fits in: an infinity stays one, at the end of the row, and NaN is not compared
(`le_of_roundsTo`).

So a float that is not above another one is not above it either after the same has been taken from
both and they have been divided (`not_div_sub_lt_div_sub`), whether any of this overflows or not.
-/

set_option autoImplicit false

namespace NaturalNames.Number

open Float.Model (Format UnpackedFloat)
open Float.Model.UnpackedFloat

/-! ### Rounding of all numbers -/

/-- The place that a number is rounded to. -/
inductive RoundsTo : ℚ → Int → Prop
  | zero : RoundsTo 0 0
  | positive {q : ℚ} {r : Nat} {e : Int} (hq : 0 < q) (h : RoundsAt q r e) :
      RoundsTo q (min (placeOf r e) lastPlace)
  | negative {q : ℚ} {r : Nat} {e : Int} (hq : 0 < q) (h : RoundsAt q r e) :
      RoundsTo (-q) (-min (placeOf r e) lastPlace)

/-- The last place is not on the negative side. -/
theorem lastPlace_nonneg : 0 ≤ lastPlace := by decide

/-- Rounding keeps the order of numbers: a greater number has no lesser place. -/
theorem RoundsTo.place_le {q q' : ℚ} {p p' : Int} (h : RoundsTo q p) (h' : RoundsTo q' p')
    (hle : q ≤ q') : p ≤ p' := by
  have hlast := lastPlace_nonneg
  -- Across zero the signs decide. On one side of it the rounded mantissas do.
  cases h with
  | zero =>
    cases h' with
    | zero => exact le_rfl
    | positive _ h' =>
      have hplace := h'.placeOf_nonneg
      omega
    | negative hq' _ => linarith
  | positive hq h =>
    cases h' with
    | zero => linarith
    | positive _ h' => exact min_le_min_right _ (h.placeOf_le h' hle)
    | negative hq' _ => linarith
  | negative hq h =>
    have hplace := h.placeOf_nonneg
    cases h' with
    | zero => omega
    | positive _ h' =>
      have hplace' := h'.placeOf_nonneg
      omega
    | negative _ h' =>
      -- On the negative side all is turned round.
      exact neg_le_neg (min_le_min_right _ (h'.placeOf_le h (neg_le_neg_iff.1 hle)))

/-- The number with a sign. -/
def signedRat (negative : Bool) (q : ℚ) : ℚ := (if negative then -1 else 1) * q

/-- The rule for positive numbers holds for both signs, as rounding knows no direction. -/
theorem RoundsTo.ofSigned {q : ℚ} {r : Nat} {e : Int} (negative : Bool) (hq : 0 < q)
    (h : RoundsAt q r e) :
    RoundsTo (signedRat negative q) (Reading.signed negative (min (placeOf r e) lastPlace)) := by
  cases negative with
  | false =>
    rw [signedRat, if_neg (by decide), one_mul]
    exact .positive hq h
  | true =>
    rw [signedRat, if_pos rfl, neg_one_mul]
    exact .negative hq h

/-- An integer is its size with its sign. -/
theorem intCast_eq_signedRat (m : Int) :
    (m : ℚ) = signedRat (Reading.isNegative (if m < 0 then .negative else .positive)) m.natAbs := by
  rw [signedRat]
  split
  next hlt =>
    rw [Reading.isNegative, if_pos rfl, Nat.cast_natAbs, abs_of_neg hlt]
    push_cast
    ring
  next hge =>
    rw [Reading.isNegative, if_neg (by decide), Nat.cast_natAbs, abs_of_nonneg (by omega), one_mul]

/-- A mantissa that is shifted to an exponent below its own stands for the same number. -/
theorem apply_mul_two_pow (sign : Sign) (m : Nat) {d e : Int} (h : d ≤ e) :
    ((sign.apply (m * 2 ^ (e - d).toNat : Nat) : Int) : ℚ) * 2 ^ d
      = signedRat (Reading.isNegative sign) (m * 2 ^ e) := by
  have hpow : (2 : ℚ) ^ (e - d).toNat * 2 ^ d = 2 ^ e := by
    rw [← zpow_natCast, ← zpow_add₀ two_ne_zero]
    congr 1
    omega
  rw [← hpow, signedRat]
  cases sign <;> simp [Sign.apply, Reading.isNegative, mul_assoc]

/-- Both zeros stand at the place zero. -/
theorem place_ofUnpacked_zero (s : Sign) : (Reading.ofUnpacked (.zero s)).place = 0 :=
  Reading.place_zero _

/-- Both zeros stand for the number zero. -/
theorem exact_ofUnpacked_zero (s : Sign) : (Reading.ofUnpacked (.zero s)).exact = 0 :=
  Reading.exact_zero _ _

/-- What is stored of a rounded result is at the place that the exact result is rounded to. -/
theorem roundsTo_roundWithAccuracy (sign : Sign) {m : Nat} {e : Int} {accuracy : Accuracy} {x : ℚ}
    (hx : 0 < x) (h : IsAt (.ofMantissaAndAccuracy m accuracy) x)
    (hfull : leastExponent < e → hiddenBit ≤ m) :
    RoundsTo (signedRat (Reading.isNegative sign) (x * 2 ^ e)) (Reading.ofUnpacked
      (stored (roundWithAccuracy Format.binary64 sign m e accuracy))).place := by
  have hrounds := roundsAt_rounded h hfull
  rw [roundWithAccuracy_eq_ofParts, place_stored_ofParts sign hrounds]
  exact .ofSigned _ (mul_pos hx (zpow_pos two_pos e)) hrounds

/-- Bringing an integer with an exponent into the format rounds it. -/
theorem roundsTo_normalize (m : Int) (e : Int) (zeroSign : Sign) :
    RoundsTo (m * 2 ^ e)
      (Reading.ofUnpacked (stored (normalize Format.binary64 m e zeroSign))).place := by
  rw [normalize_eq]
  split
  next hzero =>
    rw [hzero, Int.cast_zero, zero_mul]
    show RoundsTo 0 (Reading.ofUnpacked (.zero zeroSign)).place
    rw [place_ofUnpacked_zero]
    exact .zero
  next hne =>
    -- Rounding first moves the mantissa up to the width of the format, which changes no number.
    obtain ⟨n, hfull, heq⟩ := round_eq (if m < 0 then .negative else .positive) m.natAbs e
    have habs : m.natAbs ≠ 0 := Int.natAbs_ne_zero.2 hne
    have hpos : 0 < m.natAbs * 2 ^ n := Nat.mul_pos (Nat.pos_of_ne_zero habs) (Nat.two_pow_pos n)
    have hscale : ((m.natAbs * 2 ^ n : Nat) : ℚ) * 2 ^ (e - n) = m.natAbs * 2 ^ e := by
      rw [zpow_sub₀ two_ne_zero, zpow_natCast]
      push_cast
      field_simp
    rw [heq, intCast_eq_signedRat, signedRat, mul_assoc, ← hscale]
    exact roundsTo_roundWithAccuracy _ (Nat.cast_pos.2 hpos) (IsAt.whole _) (hfull habs)

/-! ### Sums and quotients of numbers -/

section

variable {u v w : UnpackedFloat}

/-- A number that has a place is stored as it is. -/
theorem stored_of_isPlaced (h : (Reading.ofUnpacked u).IsPlaced) : stored u = u := by
  cases u with
  | notANumber => rfl
  | infinity s => rfl
  | zero s => rfl
  | finite s m e hm =>
    obtain ⟨-, he⟩ := h
    rw [stored, if_neg (by omega)]

/-- A number that can be stored is at its own place. -/
theorem roundsTo_exact (hu : u.isFinite) (h : (Reading.ofUnpacked u).IsPlaced) :
    RoundsTo (Reading.ofUnpacked u).exact (Reading.ofUnpacked u).place := by
  cases u with
  | notANumber => cases hu
  | infinity s => cases hu
  | zero s =>
    rw [place_ofUnpacked_zero, exact_ofUnpacked_zero]
    exact .zero
  | finite s m e hm =>
    -- A mantissa that fits has nothing behind it that could be rounded.
    obtain ⟨⟨hlt, hleast, hfull⟩, hmax⟩ := h
    have hpos : (0 : ℚ) < 2 ^ e := zpow_pos two_pos e
    have hrounds : RoundsAt (m * 2 ^ e) m e := by
      refine ⟨⟨⟨m, false, false⟩, ?_, rfl⟩, hleast, ?_, fun habove => ?_⟩
      · rw [mul_div_cancel_right₀ _ hpos.ne']
        exact IsAt.whole m
      · rw [mul_lt_mul_iff_left₀ hpos]
        exact_mod_cast hlt
      · rw [mul_le_mul_iff_left₀ hpos]
        exact_mod_cast hfull habove
    have hmin : min (placeOf m e) lastPlace = placeOf m e := by
      rw [placeOf, lastPlace]
      rw [hiddenBit_eq] at *
      omega
    have hsigned := RoundsTo.ofSigned (Reading.isNegative s)
      (mul_pos (Nat.cast_pos.2 hm) hpos) hrounds
    rw [hmin] at hsigned
    exact hsigned

/-- The sum of two finite numbers is the exact sum, rounded once. -/
theorem roundsTo_add (hu : u.isFinite) (hu' : (Reading.ofUnpacked u).IsPlaced) (hv : v.isFinite)
    (hv' : (Reading.ofUnpacked v).IsPlaced) :
    RoundsTo ((Reading.ofUnpacked u).exact + (Reading.ofUnpacked v).exact)
      (Reading.ofUnpacked (stored (UnpackedFloat.add Format.binary64 u v))).place := by
  cases u with
  | notANumber => cases hu
  | infinity s => cases hu
  | zero s =>
    rw [exact_ofUnpacked_zero, zero_add]
    cases v with
    | notANumber => cases hv
    | infinity t => cases hv
    | zero t =>
      rw [exact_ofUnpacked_zero]
      cases s <;> cases t <;> exact .zero
    | finite t n e hn =>
      show RoundsTo _ (Reading.ofUnpacked (stored (.finite t n e hn))).place
      rw [stored_of_isPlaced hv']
      exact roundsTo_exact rfl hv'
  | finite s m d hm =>
    cases v with
    | notANumber => cases hv
    | infinity t => cases hv
    | zero t =>
      rw [exact_ofUnpacked_zero, add_zero]
      show RoundsTo _ (Reading.ofUnpacked (stored (.finite s m d hm))).place
      rw [stored_of_isPlaced hu']
      exact roundsTo_exact rfl hu'
    | finite t n e hn =>
      -- Both mantissas are shifted to the lesser exponent, where their sum is exact.
      have hsum := roundsTo_normalize (s.apply (m * 2 ^ (d - min d e).toNat : Nat)
        + t.apply (n * 2 ^ (e - min d e).toNat : Nat)) (min d e) .positive
      rw [Int.cast_add, add_mul, apply_mul_two_pow s m (min_le_left d e),
        apply_mul_two_pow t n (min_le_right d e)] at hsum
      rw [add_finite]
      exact hsum

/-- A quotient of mantissas comes with what there is behind it, and in full length unless it has the
least exponent or one below. -/
theorem divCore_isAt {m n : Nat} {d e : Int} (hm : 0 < m) (hn : 0 < n) :
    ∃ q e' accuracy, UnpackedFloat.divCore Format.binary64 m d n e = (q, e', accuracy) ∧
      (leastExponent < e' → hiddenBit ≤ q) ∧
      ∃ x : ℚ, 0 < x ∧ IsAt (.ofMantissaAndAccuracy q accuracy) x ∧
        x * 2 ^ e' = m * 2 ^ d / (n * 2 ^ e) := by
  obtain ⟨shift, e', he', hshift, hcore⟩ := divCore_eq m n d e
  have hpos : 0 < m * 2 ^ shift := Nat.mul_pos hm (Nat.two_pow_pos shift)
  refine ⟨_, _, _, hcore, fun habove => ?_, (m * 2 ^ shift : Nat) / n,
    div_pos (Nat.cast_pos.2 hpos) (Nat.cast_pos.2 hn), .ofFraction _ hn, ?_⟩
  · -- The shift is chosen so that the quotient has the width of the format.
    obtain ⟨bits, hbits⟩ : ∃ bits : Nat, m.log2 + shift = bits + (n.log2 + 1) :=
      ⟨m.log2 + shift - (n.log2 + 1), by omega⟩
    rw [hiddenBit_eq]
    exact Nat.le_trans (Nat.pow_le_pow_right (by omega) (by omega)) (two_pow_le_div hm hn hbits)
  · -- What the shift does to the mantissa it takes from the exponent.
    have hpow : (2 : ℚ) ^ d = 2 ^ shift * 2 ^ e' * 2 ^ e := by
      rw [← zpow_natCast, ← zpow_add₀ two_ne_zero, ← zpow_add₀ two_ne_zero]
      congr 1
      omega
    have he : (2 : ℚ) ^ e ≠ 0 := zpow_ne_zero e two_ne_zero
    have hn' : (n : ℚ) ≠ 0 := Nat.cast_ne_zero.2 hn.ne'
    rw [hpow]
    push_cast
    field_simp

/-- The quotient by a positive number is the exact quotient, rounded once. -/
theorem roundsTo_div {n : Nat} {e : Int} (hn : 0 < n) (hu : u.isFinite) :
    RoundsTo ((Reading.ofUnpacked u).exact / (n * 2 ^ e)) (Reading.ofUnpacked
      (stored (UnpackedFloat.div Format.binary64 u (.finite .positive n e hn)))).place := by
  cases u with
  | notANumber => cases hu
  | infinity s => cases hu
  | zero s =>
    rw [exact_ofUnpacked_zero, zero_div]
    cases s <;> exact .zero
  | finite s m d hm =>
    obtain ⟨q, e', accuracy, hcore, hfull, x, hx, hisAt, hscale⟩ :=
      divCore_isAt (d := d) (e := e) hm hn
    have hdiv : UnpackedFloat.div Format.binary64 (.finite s m d hm) (.finite .positive n e hn)
        = roundWithAccuracy Format.binary64 (s / .positive) q e' accuracy := by
      rw [UnpackedFloat.div, hcore]
    have hsign : s / .positive = s := by cases s <;> rfl
    have hrounds := roundsTo_roundWithAccuracy s hx hisAt hfull
    -- The quotient of the mantissas, at its exponent, is the quotient of the numbers.
    rw [hscale, signedRat, ← mul_div_assoc] at hrounds
    rw [hdiv, hsign]
    exact hrounds

/-- A quotient is in the form that the format asks for. -/
theorem isCanonical_div (u v : UnpackedFloat) :
    (Reading.ofUnpacked (UnpackedFloat.div Format.binary64 u v)).IsCanonical := by
  cases u with
  | notANumber => trivial
  | infinity s => cases v <;> trivial
  | zero s =>
    cases v with
    | notANumber => trivial
    | zero t => trivial
    | infinity t => exact isCanonical_zero _
    | finite t n e hn => exact isCanonical_zero _
  | finite s m d hm =>
    cases v with
    | notANumber => trivial
    | zero t => trivial
    | infinity t => exact isCanonical_zero _
    | finite t n e hn =>
      -- Only two finite numbers have a quotient that is rounded.
      obtain ⟨q, e', accuracy, hcore, hfull, -⟩ := divCore_isAt (d := d) (e := e) hm hn
      rw [UnpackedFloat.div, hcore]
      exact isCanonical_roundWithAccuracy _ _ hfull

end

/-! ### Floats -/

section

variable {x y b : Float}

/-- The place of a float can be read off its unpacked form. -/
theorem place_eq_place_unpack (x : Float) :
    place x = (Reading.ofUnpacked x.toModel.unpack).place := by
  rw [place, Reading.ofFloat_eq_ofUnpacked]

/-- The number that a float stands for can be read off its unpacked form. -/
theorem exact_eq_exact_unpack (x : Float) :
    exact x = (Reading.ofUnpacked x.toModel.unpack).exact := by
  rw [exact, Reading.ofFloat_eq_ofUnpacked]

/-- Every float that is a number has a place. -/
theorem isPlaced_unpack (h : x.isNaN = false) : (Reading.ofUnpacked x.toModel.unpack).IsPlaced := by
  rw [← Reading.ofFloat_eq_ofUnpacked]
  exact Reading.isPlaced_ofFloat (ofFloat_ne_nan_iff.2 h)

/-- Finite floats are numbers. -/
theorem isNaN_eq_false_of_isFinite (h : isFinite x = true) : x.isNaN = false := by
  rw [isFinite_eq_isFinite_unpack] at h
  show x.toModel.unpack.isNaN = false
  cases hunpack : x.toModel.unpack with
  | notANumber => simp [hunpack, UnpackedFloat.isFinite] at h
  | _ => rfl

/-- What is not NaN is a number or an infinity. -/
theorem isFinite_or_infinity (h : x.isNaN = false) :
    isFinite x = true ∨ ∃ s, x.toModel.unpack = .infinity s := by
  rw [isFinite_eq_isFinite_unpack]
  have hnan : x.toModel.unpack.isNaN = false := h
  cases hunpack : x.toModel.unpack with
  | notANumber => simp [hunpack, UnpackedFloat.isNaN] at hnan
  | infinity s => exact .inr ⟨s, rfl⟩
  | zero s => exact .inl rfl
  | finite s m e hm => exact .inl rfl

/-- The infinities stand at the two last places. -/
theorem place_of_infinity {s : Sign} (h : x.toModel.unpack = .infinity s) :
    place x = Reading.signed (Reading.isNegative s) lastPlace := by
  rw [place_eq_place_unpack, h]
  rfl

/-- Finite floats stand strictly between the two last places. -/
theorem place_of_isFinite (h : isFinite x = true) : -lastPlace < place x ∧ place x < lastPlace := by
  have hplaced := isPlaced_unpack (isNaN_eq_false_of_isFinite h)
  rw [isFinite_eq_isFinite_unpack] at h
  rw [place_eq_place_unpack]
  cases hunpack : x.toModel.unpack with
  | notANumber => simp [hunpack, UnpackedFloat.isFinite] at h
  | infinity s => simp [hunpack, UnpackedFloat.isFinite] at h
  | zero s =>
    rw [place_ofUnpacked_zero]
    decide
  | finite s m e hm =>
    rw [hunpack] at hplaced
    exact Reading.place_mem_Ioo hplaced

/-- All numbers, the infinities too, stand between the two last places. -/
theorem place_mem_Icc (h : x.isNaN = false) : -lastPlace ≤ place x ∧ place x ≤ lastPlace := by
  have hlast := lastPlace_nonneg
  rcases isFinite_or_infinity h with hfinite | ⟨s, hs⟩
  · have hplace := place_of_isFinite hfinite
    omega
  · rw [place_of_infinity hs, Reading.signed]
    split <;> omega

/-- An operation keeps the order if it leaves infinities as they are and rounds what keeps the order
of numbers. -/
theorem le_of_roundsTo {f : Float → Float} {g : ℚ → ℚ} (hg : Monotone g)
    (hfinite : ∀ z, isFinite z = true → RoundsTo (g (exact z)) (place (f z)))
    (hinfinite : ∀ z s, z.toModel.unpack = .infinity s → (f z).isNaN = false →
      (f z).toModel.unpack = .infinity s)
    (h : x ≤ y) (hx : (f x).isNaN = false) (hy : (f y).isNaN = false) : f x ≤ f y := by
  obtain ⟨hxnan, hynan⟩ := isNaN_of_le h
  have hlast : 0 < lastPlace := by decide
  have hle := (le_iff_place hxnan hynan).1 h
  have hfx := place_mem_Icc hx
  have hfy := place_mem_Icc hy
  rw [le_iff_place hx hy]
  -- Infinities are at the ends of the row and stay there, so only two numbers are left to compare.
  rcases isFinite_or_infinity hxnan with hxfinite | ⟨s, hs⟩
  · rcases isFinite_or_infinity hynan with hyfinite | ⟨t, ht⟩
    · exact (hfinite x hxfinite).place_le (hfinite y hyfinite)
        (hg ((le_iff hxfinite hyfinite).1 h))
    · have hplace := place_of_isFinite hxfinite
      rw [place_of_infinity ht] at hle
      rw [place_of_infinity (hinfinite y t ht hy)]
      cases t with
      | positive => exact hfx.2
      | negative => exact absurd (hplace.1.trans_le hle) (lt_irrefl _)
  · rw [place_of_infinity hs] at hle
    rw [place_of_infinity (hinfinite x s hs hx)]
    cases s with
    | negative => exact hfy.1
    | positive =>
      rcases isFinite_or_infinity hynan with hyfinite | ⟨t, ht⟩
      · exact absurd ((place_of_isFinite hyfinite).2.trans_le hle) (lt_irrefl _)
      · rw [place_of_infinity ht] at hle
        rw [place_of_infinity (hinfinite y t ht hy)]
        exact hle

/-! ### Differences -/

/-- Taking away is adding the opposite, for floats as for numbers. -/
theorem sub_eq_add_neg_unpacked (u v : UnpackedFloat) :
    UnpackedFloat.sub Format.binary64 u v = UnpackedFloat.add Format.binary64 u v.neg := by
  cases u with
  | notANumber => cases v <;> rfl
  | infinity s => cases v <;> rfl
  | zero s => cases v <;> rfl
  | finite s m d hm =>
    cases v with
    | notANumber => rfl
    | infinity t => rfl
    | zero t => rfl
    | finite t n e hn =>
      -- The sign of zero is chosen in the same way on both sides.
      rw [UnpackedFloat.sub, UnpackedFloat.neg, UnpackedFloat.add]
      dsimp only
      rw [sub_eq_add_neg]
      cases t <;> simp [Sign.apply]

/-- The opposite of a number that has a place has one. -/
theorem place_neg_unpacked (u : UnpackedFloat) :
    (Reading.ofUnpacked u).IsPlaced → (Reading.ofUnpacked u.neg).IsPlaced := by
  cases u with
  | notANumber => exact id
  | infinity s => exact id
  | zero s => exact id
  | finite s m e hm => exact id

/-- The opposite stands for the opposite number. -/
theorem exact_neg_unpacked (u : UnpackedFloat) :
    (Reading.ofUnpacked u.neg).exact = -(Reading.ofUnpacked u).exact := by
  cases u with
  | notANumber => exact neg_zero.symm
  | infinity s => exact neg_zero.symm
  | zero s =>
    show (Reading.ofUnpacked (.zero (-s))).exact = _
    rw [exact_ofUnpacked_zero, exact_ofUnpacked_zero, neg_zero]
  | finite s m e hm =>
    show Reading.exact (.finite _ m e) = -Reading.exact (.finite _ m e)
    cases s <;> simp [Reading.exact, Reading.isNegative]

/-- A difference is computed as a sum and then stored. -/
theorem unpack_sub (x b : Float) : (x - b).toModel.unpack
    = stored (UnpackedFloat.add Format.binary64 x.toModel.unpack b.toModel.unpack.neg) := by
  -- Turning the sign does not take a number out of the form in which it can be stored.
  have hneg : OnGrid leastExponent b.toModel.unpack.neg := by
    have hgrid := (isOnGrid_leastExponent b).onGrid
    cases hunpack : b.toModel.unpack with
    | notANumber => exact ⟨trivial, trivial⟩
    | infinity s => exact ⟨trivial, trivial⟩
    | zero s => exact ⟨isCanonical_zero _, trivial⟩
    | finite s m e hm =>
      rw [hunpack] at hgrid
      exact ⟨hgrid.isCanonical, hgrid.isMultiple⟩
  rw [← unpack_pack ((isOnGrid_leastExponent x).onGrid.add hneg).isCanonical,
    ← sub_eq_add_neg_unpacked]
  rfl

/-- The difference of two finite numbers is the exact difference, rounded once. -/
theorem roundsTo_sub (hx : isFinite x = true) (hb : isFinite b = true) :
    RoundsTo (exact x - exact b) (place (x - b)) := by
  have hxplaced := isPlaced_unpack (isNaN_eq_false_of_isFinite hx)
  have hbplaced := place_neg_unpacked _ (isPlaced_unpack (isNaN_eq_false_of_isFinite hb))
  rw [isFinite_eq_isFinite_unpack] at hx hb
  have hneg : b.toModel.unpack.neg.isFinite = true := by
    cases hunpack : b.toModel.unpack with
    | notANumber => simp [hunpack, UnpackedFloat.isFinite] at hb
    | infinity s => simp [hunpack, UnpackedFloat.isFinite] at hb
    | zero s => rfl
    | finite s m e hm => rfl
  rw [place_eq_place_unpack, unpack_sub, exact_eq_exact_unpack, exact_eq_exact_unpack,
    sub_eq_add_neg, ← exact_neg_unpacked]
  exact roundsTo_add hx hxplaced hneg hbplaced

/-- An infinite second term decides a sum, if the sum is a number at all. -/
theorem add_infinity (u : UnpackedFloat) (s : Sign) :
    UnpackedFloat.add Format.binary64 u (.infinity s) = .infinity s ∨
      UnpackedFloat.add Format.binary64 u (.infinity s) = .notANumber := by
  cases u with
  | infinity t => cases s <;> cases t <;> simp [UnpackedFloat.add]
  | _ => simp [UnpackedFloat.add]

/-- An infinite first term decides a sum in the same way. -/
theorem infinity_add (s : Sign) (v : UnpackedFloat) :
    UnpackedFloat.add Format.binary64 (.infinity s) v = .infinity s ∨
      UnpackedFloat.add Format.binary64 (.infinity s) v = .notANumber := by
  cases v with
  | infinity t => cases s <;> cases t <;> simp [UnpackedFloat.add]
  | _ => simp [UnpackedFloat.add]

/-- All floats that are not numbers are unpacked to the same thing. -/
theorem unpack_of_isNaN (h : x.isNaN = true) : x.toModel.unpack = .notANumber := by
  have hnan : x.toModel.unpack.isNaN = true := h
  cases hunpack : x.toModel.unpack with
  | notANumber => rfl
  | _ => simp [hunpack, UnpackedFloat.isNaN] at hnan

/-- A number is not unpacked to what the others are unpacked to. -/
theorem unpack_ne_notANumber (h : x.isNaN = false) : x.toModel.unpack ≠ .notANumber := by
  intro hunpack
  have hnan : x.toModel.unpack.isNaN = false := h
  rw [hunpack] at hnan
  cases hnan

/-- Numbers that are unpacked alike are at most each other. -/
theorem le_of_unpack_eq (hnan : x.isNaN = false) (h : x.toModel.unpack = y.toModel.unpack) :
    x ≤ y := by
  cases eq_of_unpack_eq h
  exact (le_iff_place hnan hnan).2 le_rfl

/-- Differences from one float are in the order of what it is taken from. -/
theorem float_sub_le_sub (h : x ≤ y) (hx : (x - b).isNaN = false) (hy : (y - b).isNaN = false) :
    x - b ≤ y - b := by
  have hadd : ∀ z : Float, (z - b).isNaN = false →
      UnpackedFloat.add Format.binary64 z.toModel.unpack b.toModel.unpack.neg ≠ .notANumber := by
    intro z hz hadd
    apply unpack_ne_notANumber hz
    rw [unpack_sub, hadd]
    rfl
  -- Otherwise the differences would be NaN as well.
  have hbnan : b.isNaN = false := by
    rw [← Bool.not_eq_true]
    intro hbnan
    apply hadd x hx
    rw [unpack_of_isNaN hbnan]
    cases x.toModel.unpack <;> rfl
  rcases isFinite_or_infinity hbnan with hb | ⟨t, ht⟩
  · refine le_of_roundsTo (f := (· - b)) (g := (· - exact b)) (fun _ _ hle => ?_)
      (fun z hz => roundsTo_sub hz hb) (fun z s hs hz => ?_) h hx hy
    · exact sub_le_sub_right hle _
    · have hne := hadd z hz
      show (z - b).toModel.unpack = _
      rw [unpack_sub]
      rw [hs] at hne ⊢
      rw [(infinity_add s b.toModel.unpack.neg).resolve_right hne]
      rfl
  · -- It does not matter from what an infinity is taken.
    have hinfinity : ∀ z : Float, (z - b).isNaN = false →
        (z - b).toModel.unpack = .infinity (-t) := by
      intro z hz
      have hne := hadd z hz
      rw [unpack_sub]
      rw [ht] at hne ⊢
      have hsum : UnpackedFloat.add Format.binary64 z.toModel.unpack (.infinity (-t))
          = .infinity (-t) :=
        (add_infinity _ _).resolve_right hne
      show stored (UnpackedFloat.add Format.binary64 z.toModel.unpack (.infinity (-t))) = _
      rw [hsum]
      rfl
    exact le_of_unpack_eq hx ((hinfinity x hx).trans (hinfinity y hy).symm)

/-! ### Quotients -/

/-- A quotient is computed on unpacked floats and then stored. -/
theorem unpack_div (x y : Float) : (x / y).toModel.unpack
    = stored (UnpackedFloat.div Format.binary64 x.toModel.unpack y.toModel.unpack) :=
  unpack_pack (isCanonical_div _ _)

/-- What is divided by an infinity and is not one itself leaves zero. -/
theorem place_div_infinity {z : Float} (hy : y.toModel.unpack = .infinity .positive)
    (hnan : (z / y).isNaN = false) : place (z / y) = 0 := by
  rw [place_eq_place_unpack]
  have hunpack := unpack_div z y
  rw [hy] at hunpack
  cases hz : z.toModel.unpack with
  | notANumber =>
    rw [hz] at hunpack
    exact absurd hunpack (unpack_ne_notANumber hnan)
  | infinity s =>
    rw [hz] at hunpack
    exact absurd hunpack (unpack_ne_notANumber hnan)
  -- What is finite is zero when it is divided by infinity.
  | zero s =>
    rw [hunpack, hz]
    exact Reading.place_zero _
  | finite s m e hm =>
    rw [hunpack, hz]
    exact Reading.place_zero _

/-- What is divided by zero and is not zero itself leaves the infinity of its sign. -/
theorem place_div_zero {z : Float} (hy : y.toModel.unpack = .zero .positive)
    (hnan : (z / y).isNaN = false) :
    0 < place z ∧ place (z / y) = lastPlace ∨ place z < 0 ∧ place (z / y) = -lastPlace := by
  have hunpack := unpack_div z y
  rw [hy] at hunpack
  have hlast : 0 < lastPlace := by decide
  cases hz : z.toModel.unpack with
  | notANumber =>
    rw [hz] at hunpack
    exact absurd hunpack (unpack_ne_notANumber hnan)
  | zero s =>
    rw [hz] at hunpack
    exact absurd hunpack (unpack_ne_notANumber hnan)
  -- What is not zero is infinite when it is divided by zero, with its own sign.
  | infinity s =>
    rw [hz] at hunpack
    have hquotient := place_of_infinity hunpack
    have hplace := place_of_infinity hz
    cases s with
    | positive => exact .inl ⟨hplace ▸ hlast, hquotient⟩
    | negative => exact .inr ⟨hplace ▸ neg_neg_of_pos hlast, hquotient⟩
  | finite s m e hm =>
    rw [hz] at hunpack
    have hquotient := place_of_infinity hunpack
    have hplaced : (Reading.ofUnpacked z.toModel.unpack).IsPlaced := by
      apply isPlaced_unpack
      show z.toModel.unpack.isNaN = false
      rw [hz]
      rfl
    rw [hz] at hplaced
    rw [place_eq_place_unpack z, hz]
    cases s with
    | positive => exact .inl ⟨Reading.place_pos hm hplaced, hquotient⟩
    | negative => exact .inr ⟨Reading.place_neg hm hplaced, hquotient⟩

/-- Quotients by a natural number are in the order of what is divided. -/
theorem float_div_le_div {n : Nat} (h : x ≤ y) (hx : (x / Float.ofNat n).isNaN = false)
    (hy : (y / Float.ofNat n).isNaN = false) : x / Float.ofNat n ≤ y / Float.ofNat n := by
  rcases Nat.eq_zero_or_pos n with rfl | hn
  · -- Division by zero leaves nothing but the sign.
    obtain ⟨hxnan, hynan⟩ := isNaN_of_le h
    have hle := (le_iff_place hxnan hynan).1 h
    have hlast := lastPlace_nonneg
    have hzero : (Float.ofNat 0).toModel.unpack = .zero .positive := rfl
    rw [le_iff_place hx hy]
    rcases place_div_zero hzero hx with hx | hx <;>
      rcases place_div_zero hzero hy with hy | hy <;> omega
  · rcases unpack_ofNat_positive hn.ne' with hinfinity | ⟨m, e, hm, hfinite⟩
    · -- The float of a natural number that is too great is an infinity.
      rw [le_iff_place hx hy, place_div_infinity hinfinity hx, place_div_infinity hinfinity hy]
    · refine le_of_roundsTo (f := (· / Float.ofNat n)) (g := (· / (m * 2 ^ e))) (fun _ _ hle => ?_)
        (fun z hz => ?_) (fun z s hs hz => ?_) h hx hy
      · exact div_le_div_of_nonneg_right hle (by positivity)
      · rw [isFinite_eq_isFinite_unpack] at hz
        rw [place_eq_place_unpack, unpack_div, hfinite, exact_eq_exact_unpack]
        exact roundsTo_div hm hz
      · show (z / Float.ofNat n).toModel.unpack = _
        rw [unpack_div, hs, hfinite]
        cases s <;> rfl

/-- What is at most another float is not greater than it. -/
theorem not_lt_of_float_le (h : x ≤ y) : ¬ y < x := by
  obtain ⟨hx, hy⟩ := isNaN_of_le h
  rw [lt_iff_compare, compare_unpack_eq_compare_place hy hx, Option.some.injEq, Int.compare_eq_lt,
    Int.not_lt]
  exact (le_iff_place hx hy).1 h

/-- No float is less than itself. -/
theorem not_float_lt_self (x : Float) : ¬ x < x := fun h => not_lt_of_float_le (float_le_of_lt h) h

/-- A quotient that is a number is one of a number. -/
theorem isNaN_of_isNaN_div {z : Float} (h : (z / y).isNaN = false) : z.isNaN = false := by
  rw [← Bool.not_eq_true]
  intro hz
  apply unpack_ne_notANumber h
  rw [unpack_div, unpack_of_isNaN hz]
  cases y.toModel.unpack <;> rfl

/-- What is less is not more after the same has been taken from both and they have been divided by a
natural number. -/
theorem not_div_sub_lt_div_sub (h : x ≤ y) (b : Float) (n : Nat) :
    ¬ (y - b) / Float.ofNat n < (x - b) / Float.ofNat n := by
  intro hlt
  obtain ⟨hy, hx⟩ := isNaN_of_le (float_le_of_lt hlt)
  have hsub := float_sub_le_sub h (isNaN_of_isNaN_div hx) (isNaN_of_isNaN_div hy)
  exact not_lt_of_float_le (float_div_le_div hsub hx hy) hlt

/-- A sum that starts from `-0` is the other term. -/
theorem negative_zero_add (x : Float) : -0 + x = x := by
  apply eq_of_unpack_eq
  rw [unpack_add, unpack_negative_zero]
  by_cases hnan : x.isNaN = true
  · rw [unpack_of_isNaN hnan]
    rfl
  · have hplaced := isPlaced_unpack (Bool.not_eq_true _ ▸ hnan)
    -- The other zero would not do: with it in front the negative zero became the positive one.
    have hadd : UnpackedFloat.add Format.binary64 (.zero .negative) x.toModel.unpack
        = x.toModel.unpack := by
      cases x.toModel.unpack with
      | zero s => cases s <;> rfl
      | _ => rfl
    rw [hadd, stored_of_isPlaced hplaced]

end

end NaturalNames.Number
