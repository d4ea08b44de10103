import Mathlib
import NaturalNames.Proofs.Number.TotalOrder
import NaturalNames.Proofs.Number.Operations

/-!
# `NaturalNames.Proofs.Number.Nearest`: rounding to the nearest mantissa keeps the order

The exact result of an operation is a point between two mantissas. What is known of it when it is
rounded is the lower mantissa and two bits, which say on which side of the middle it is (`IsAt`).
Shifting keeps that knowledge, and it is enough to round to the nearest mantissa, so a greater point
is not rounded to a lesser one (`IsAt.roundedMantissa_le`).

Numbers of different sizes are rounded at different exponents. Between them there is a power of two,
which neither is rounded beyond (`RoundsAt.placeOf_le`). The order is that of the row of all floats,
in which the greatest mantissa of an exponent is followed by the least of the next one. An overflow
is where that row ends (`place_stored_ofParts`).
-/

set_option autoImplicit false

namespace NaturalNames.Number

open Float.Model (Format UnpackedFloat)
open Float.Model.UnpackedFloat

/-! ### Points -/

/-- The mantissa is the whole part of the point `x`, and the two bits say on which side of one half
the rest of it is. -/
structure IsAt (em : ExtendedMantissa) (x : ℚ) : Prop where
  le : em.mantissa ≤ x
  lt : x < em.mantissa + 1
  roundBit_iff : em.roundBit = true ↔ em.mantissa + 1 / 2 ≤ x
  stickyBit_iff : em.stickyBit = true ↔ x ≠ em.mantissa ∧ x ≠ em.mantissa + 1 / 2

namespace IsAt

variable {em em' : ExtendedMantissa} {x x' : ℚ}

/-- A whole number is where it is, with nothing cut off. -/
theorem whole (m : Nat) : IsAt ⟨m, false, false⟩ m where
  le := le_rfl
  lt := lt_add_one _
  roundBit_iff := by simp
  stickyBit_iff := by simp

/-- The bits say whether there is anything behind the mantissa. -/
theorem or_bits_iff (h : IsAt em x) : (em.roundBit || em.stickyBit) = true ↔ x ≠ em.mantissa := by
  rw [Bool.or_eq_true, h.roundBit_iff, h.stickyBit_iff]
  constructor
  · rintro (hround | ⟨hne, -⟩)
    · intro heq
      linarith
    · exact hne
  · intro hne
    rcases eq_or_ne x (em.mantissa + 1 / 2) with heq | hhalf
    · exact .inl heq.ge
    · exact .inr ⟨hne, hhalf⟩

/-- The bit that is shifted out becomes the first one, and the second one tells of both others. -/
theorem shiftRightOne (h : IsAt em x) : IsAt em.shiftRightOne (x / 2) := by
  have hbits := h.or_bits_iff
  obtain ⟨hle, hlt, -, -⟩ := h
  obtain ⟨m, roundBit, stickyBit⟩ := em
  dsimp only at hle hlt hbits
  obtain ⟨k, rfl | rfl⟩ := Nat.even_or_odd' m
  · -- With an even mantissa a zero is shifted out, so what is cut off is less than one half.
    have hdiv : 2 * k / 2 = k := by omega
    have hmod : (2 * k % 2 != 0) = false := by simp
    rw [ExtendedMantissa.shiftRightOne, hdiv, hmod]
    push_cast at hle hlt hbits
    constructor
    · dsimp only
      linarith
    · dsimp only
      linarith
    · simp only [Bool.false_eq_true, false_iff]
      intro h
      linarith
    · rw [hbits]
      constructor
      · intro hne
        exact ⟨fun h => hne (by linarith), fun h => by linarith⟩
      · rintro ⟨hne, -⟩ heq
        exact hne (by linarith)
  · -- With an odd mantissa a one is shifted out, so what is cut off is one half or more.
    have hdiv : (2 * k + 1) / 2 = k := by omega
    have hmod : ((2 * k + 1) % 2 != 0) = true := by simp
    rw [ExtendedMantissa.shiftRightOne, hdiv, hmod]
    push_cast at hle hlt hbits
    constructor
    · dsimp only
      linarith
    · dsimp only
      linarith
    · simp only [true_iff]
      linarith
    · rw [hbits]
      constructor
      · intro hne
        exact ⟨fun h => by linarith, fun h => hne (by linarith)⟩
      · rintro ⟨-, hne⟩ heq
        exact hne (by linarith)

/-- What is shifted stands where the exact quotient does, as long as the bits that were cut off are
remembered. -/
theorem shiftRight (h : IsAt em x) (n : Nat) : IsAt (em >>> n) (x / 2 ^ n) := by
  induction n with
  | zero =>
    rw [pow_zero, div_one]
    exact h
  | succ n ih =>
    rw [pow_succ, ← div_div]
    exact ih.shiftRightOne

/-- A greater number has no lesser mantissa. -/
theorem mantissa_le (h : IsAt em x) (h' : IsAt em' x') (hle : x ≤ x') :
    em.mantissa ≤ em'.mantissa := by
  have hlt : (em.mantissa : ℚ) < em'.mantissa + 1 := by linarith [h.le, h'.lt]
  exact Nat.lt_succ_iff.1 (by exact_mod_cast hlt)

/-- Greater points are not rounded to lesser mantissas. -/
theorem roundedMantissa_le (h : IsAt em x) (h' : IsAt em' x') (hle : x ≤ x') :
    em.roundedMantissa ≤ em'.roundedMantissa := by
  rcases (h.mantissa_le h' hle).lt_or_eq with hlt | heq
  · calc em.roundedMantissa ≤ em.mantissa + 1 := Number.roundedMantissa_le em
      _ ≤ em'.mantissa := hlt
      _ ≤ em'.roundedMantissa := le_roundedMantissa em'
  -- With one whole part, the bits tell where the points are.
  obtain ⟨m, roundBit, stickyBit⟩ := em
  obtain ⟨m', roundBit', stickyBit'⟩ := em'
  obtain rfl : m = m' := heq
  have hround : roundBit = true → roundBit' = true := fun hbit =>
    h'.roundBit_iff.2 ((h.roundBit_iff.1 hbit).trans hle)
  have hsticky : roundBit = true → stickyBit = true → stickyBit' = true := by
    intro hbit hbit'
    have hhalf := h.roundBit_iff.1 hbit
    obtain ⟨-, hne⟩ := h.stickyBit_iff.1 hbit'
    have hlt : (m : ℚ) + 1 / 2 < x' := (lt_of_le_of_ne hhalf hne.symm).trans_le hle
    exact h'.stickyBit_iff.2 ⟨fun heq => by linarith, hlt.ne'⟩
  cases roundBit with
  | false =>
    have hdown : ExtendedMantissa.roundedMantissa ⟨m, false, stickyBit⟩ = m := by
      cases stickyBit <;> rfl
    rw [hdown]
    exact le_roundedMantissa ⟨m, roundBit', stickyBit'⟩
  | true =>
    rw [hround rfl]
    cases stickyBit with
    | true => rw [hsticky rfl rfl]
    | false =>
      cases stickyBit' with
      | false => exact le_rfl
      | true =>
        show m + m % 2 ≤ m + 1
        omega

/-- A quotient of whole numbers is a point at the mantissa and the accuracy that it is given. -/
theorem ofFraction (m : Nat) {n : Nat} (hn : 0 < n) :
    IsAt (.ofMantissaAndAccuracy (m / n) (accuracyOfFraction (m % n) n)) (m / n : ℚ) := by
  have hpos : (0 : ℚ) < n := Nat.cast_pos.2 hn
  have hpoint : (m / n : ℚ) = (m / n : Nat) + (m % n : Nat) / n := by
    rw [eq_comm, add_div' _ _ _ hpos.ne', div_left_inj' hpos.ne']
    exact_mod_cast Nat.div_add_mod' m n
  have hrest : ((m % n : Nat) : ℚ) / n < 1 := (div_lt_one hpos).2 (Nat.cast_lt.2 (Nat.mod_lt m hn))
  rw [hpoint]
  generalize m / n = quotient at *
  generalize m % n = rest at *
  rw [accuracyOfFraction]
  split
  next hzero =>
    rw [hzero, Nat.cast_zero, zero_div, add_zero]
    exact whole quotient
  next hne =>
    have hrest' : (0 : ℚ) < rest / n := div_pos (Nat.cast_pos.2 (Nat.pos_of_ne_zero hne)) hpos
    -- The rest of the division says on which side of one half the quotient is.
    rcases Nat.lt_trichotomy (2 * rest) n with hlt | heq | hgt
    · have hhalf : (rest : ℚ) / n < 1 / 2 := by
        rw [div_lt_div_iff₀ hpos two_pos]
        exact_mod_cast (by omega : rest * 2 < 1 * n)
      rw [Nat.compare_eq_lt.2 hlt]
      constructor <;> simp [ExtendedMantissa.ofMantissaAndAccuracy] <;> grind
    · have hhalf : (rest : ℚ) / n = 1 / 2 := by
        rw [div_eq_div_iff hpos.ne' two_ne_zero]
        exact_mod_cast (by omega : rest * 2 = 1 * n)
      rw [Nat.compare_eq_eq.2 heq, hhalf]
      constructor <;> norm_num [ExtendedMantissa.ofMantissaAndAccuracy]
    · have hhalf : (1 : ℚ) / 2 < rest / n := by
        rw [div_lt_div_iff₀ two_pos hpos]
        exact_mod_cast (by omega : 1 * n < rest * 2)
      rw [Nat.compare_eq_gt.2 hgt]
      constructor <;> simp [ExtendedMantissa.ofMantissaAndAccuracy] <;> grind

end IsAt

/-! ### Rounding of positive numbers -/

/-- The mantissa `r` with the exponent `e` is what a positive number is rounded to. It may be one
bit too long. -/
structure RoundsAt (q : ℚ) (r : Nat) (e : Int) : Prop where
  exists_isAt : ∃ em, IsAt em (q / 2 ^ e) ∧ em.roundedMantissa = r
  leastExponent_le : leastExponent ≤ e
  lt : q < 2 * hiddenBit * 2 ^ e
  hiddenBit_mul_le : leastExponent < e → hiddenBit * 2 ^ e ≤ q

/-- The place of a positive number, which goes on where a mantissa is one bit too long. -/
def placeOf (r : Nat) (e : Int) : Int := (e - leastExponent) * hiddenBit + r

namespace RoundsAt

variable {q q' : ℚ} {r r' : Nat} {e e' : Int}

/-- A rounded mantissa has the width of the format, or is one bit longer and a power of two. -/
theorem le_two_mul_hiddenBit (h : RoundsAt q r e) : r ≤ 2 * hiddenBit := by
  obtain ⟨em, hem, rfl⟩ := h.exists_isAt
  have hlt : (em.mantissa : ℚ) < 2 * hiddenBit :=
    hem.le.trans_lt ((div_lt_iff₀ (zpow_pos two_pos e)).2 h.lt)
  have hmantissa : em.mantissa < 2 * hiddenBit := by exact_mod_cast hlt
  exact (roundedMantissa_le em).trans hmantissa

/-- Above the least exponent a rounded mantissa has the hidden bit. -/
theorem hiddenBit_le (h : RoundsAt q r e) (he : leastExponent < e) : hiddenBit ≤ r := by
  obtain ⟨em, hem, rfl⟩ := h.exists_isAt
  have hle : (hiddenBit : ℚ) ≤ q / 2 ^ e :=
    (le_div_iff₀ (zpow_pos two_pos e)).2 (h.hiddenBit_mul_le he)
  have hlt : (hiddenBit : ℚ) < em.mantissa + 1 := hle.trans_lt hem.lt
  have hmantissa : hiddenBit ≤ em.mantissa := Nat.lt_succ_iff.1 (by exact_mod_cast hlt)
  exact hmantissa.trans (le_roundedMantissa em)

/-- The greater of two numbers does not have the lesser exponent. -/
theorem exponent_le (h : RoundsAt q r e) (h' : RoundsAt q' r' e') (hle : q ≤ q') : e ≤ e' := by
  -- Otherwise a power of two is not above the lesser number and above the greater one.
  by_contra hlt
  have habove : leastExponent < e := by
    have hleast := h'.leastExponent_le
    omega
  have hpow : (2 : ℚ) * 2 ^ e' ≤ 2 ^ e := by
    rw [← zpow_one_add₀ two_ne_zero]
    exact zpow_le_zpow_right₀ one_le_two (by omega)
  have hhidden : (0 : ℚ) ≤ hiddenBit := Nat.cast_nonneg _
  have hlow := h.hiddenBit_mul_le habove
  have hhigh := h'.lt
  nlinarith

/-- Rounding keeps the order. With one exponent it keeps the order of the points, and between two
exponents there is a power of two that neither number is rounded beyond. -/
theorem placeOf_le (h : RoundsAt q r e) (h' : RoundsAt q' r' e') (hle : q ≤ q') :
    placeOf r e ≤ placeOf r' e' := by
  have hr := h.le_two_mul_hiddenBit
  rcases (h.exponent_le h' hle).lt_or_eq with hlt | rfl
  · -- A greater exponent stands for a greater place, as the mantissa there has the hidden bit.
    have hr' := h'.hiddenBit_le (lt_of_le_of_lt h.leastExponent_le hlt)
    rw [placeOf, placeOf]
    rw [hiddenBit_eq] at *
    omega
  · -- With one exponent it comes to the mantissas, and rounding keeps their order.
    obtain ⟨em, hem, rfl⟩ := h.exists_isAt
    obtain ⟨em', hem', rfl⟩ := h'.exists_isAt
    have hpoint : q / 2 ^ e ≤ q' / 2 ^ e := div_le_div_of_nonneg_right hle (zpow_pos two_pos e).le
    have hmantissa := hem.roundedMantissa_le hem' hpoint
    rw [placeOf, placeOf]
    omega

/-- Positive numbers are rounded to places that are not negative. -/
theorem placeOf_nonneg (h : RoundsAt q r e) : 0 ≤ placeOf r e := by
  have he := h.leastExponent_le
  rw [placeOf, hiddenBit_eq]
  omega

end RoundsAt

/-- The last place is that of infinity. -/
def lastPlace : Int := 2047 * hiddenBit

/-- A mantissa of full length at most is stored at its place, or at the last one as an infinity. -/
theorem place_stored_ofParts_of_lt (sign : Sign) {m : Nat} {e : Int} (hm : m ≠ 0)
    (hlt : m < 2 * hiddenBit) (he : leastExponent ≤ e) (hfull : leastExponent < e → hiddenBit ≤ m) :
    (Reading.ofUnpacked (stored (ofParts sign m e))).place
      = Reading.signed (Reading.isNegative sign) (min (placeOf m e) lastPlace) := by
  rw [ofParts, dif_neg hm, stored, placeOf, lastPlace]
  split
  next hmax =>
    -- The exponent is too great, so what is stored is an infinity, which stands at the last place.
    have hhidden := hfull (by omega)
    rw [hiddenBit_eq] at *
    show Reading.signed _ (2047 * (hiddenBit : Int)) = _
    rw [hiddenBit_eq]
    congr 1
    omega
  next hmax =>
    show Reading.signed _ ((e - leastExponent) * hiddenBit + m) = _
    congr 1
    rw [hiddenBit_eq] at *
    omega

/-- What is stored of a rounded number is at its place, or at the last one if that is not beyond
it. -/
theorem place_stored_ofParts (sign : Sign) {q : ℚ} {r : Nat} {e : Int} (h : RoundsAt q r e) :
    (Reading.ofUnpacked (stored (if r < 2 * hiddenBit then ofParts sign r e
      else ofParts sign hiddenBit (e + 1)))).place
        = Reading.signed (Reading.isNegative sign) (min (placeOf r e) lastPlace) := by
  have he := h.leastExponent_le
  have hr := h.le_two_mul_hiddenBit
  have hfull := h.hiddenBit_le
  split
  next hlt =>
    rcases Nat.eq_zero_or_pos r with rfl | hpos
    · -- Nothing is left only of a number below the least exponent.
      have hleast : e = leastExponent := by
        rw [hiddenBit_eq] at hfull
        omega
      rw [hleast]
      cases sign <;> decide
    · exact place_stored_ofParts_of_lt sign hpos.ne' hlt he hfull
  next hge =>
    -- One bit too long, a mantissa has the place of the first one with the next exponent.
    have hcarry : r = 2 * hiddenBit := by omega
    rw [place_stored_ofParts_of_lt sign (by decide) (by decide) (by omega) (fun _ => le_rfl),
      hcarry, placeOf, placeOf]
    congr 2
    rw [hiddenBit_eq]
    omega

/-- The mantissa and exponent that the algorithm rounds to are those that the rule of rounding asks
for. -/
theorem roundsAt_rounded {m : Nat} {e : Int} {accuracy : Accuracy} {x : ℚ}
    (h : IsAt (.ofMantissaAndAccuracy m accuracy) x) (hfull : leastExponent < e → hiddenBit ≤ m) :
    RoundsAt (x * 2 ^ e) (rounded m e accuracy) (e + excess m e) := by
  have hpow : (2 : ℚ) ^ (e + excess m e) = 2 ^ excess m e * 2 ^ e := by
    rw [zpow_add₀ two_ne_zero, zpow_natCast, mul_comm]
  have hmantissa := mantissa_ofMantissaAndAccuracy m accuracy
  have hpos : (0 : ℚ) < 2 ^ e := zpow_pos two_pos e
  constructor
  case exists_isAt =>
    refine ⟨_, ?_, rfl⟩
    rw [hpow, mul_div_mul_right _ _ hpos.ne']
    exact h.shiftRight _
  case leastExponent_le => exact leastExponent_le_add_excess m e
  case lt =>
    have hlt : m + 1 ≤ 2 * hiddenBit * 2 ^ excess m e :=
      (Nat.div_lt_iff_lt_mul (Nat.two_pow_pos _)).1 (div_two_pow_excess_lt m e)
    have hx : x < m + 1 := hmantissa ▸ h.lt
    rw [hpow, ← mul_assoc, mul_lt_mul_iff_left₀ hpos]
    exact hx.trans_le (by exact_mod_cast hlt)
  case hiddenBit_mul_le =>
    intro habove
    have hle : hiddenBit * 2 ^ excess m e ≤ m :=
      (Nat.le_div_iff_mul_le (Nat.two_pow_pos _)).1 (hiddenBit_le_div_two_pow_excess hfull habove)
    have hx : (m : ℚ) ≤ x := hmantissa ▸ h.le
    rw [hpow, ← mul_assoc, mul_le_mul_iff_left₀ hpos]
    exact le_trans (by exact_mod_cast hle) hx

end NaturalNames.Number
