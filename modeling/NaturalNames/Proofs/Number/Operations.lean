import Mathlib
import NaturalNames.Proofs.Number.Rounding

/-!
# `NaturalNames.Proofs.Number.Operations`: sums, products and quotients stay on a grid

The multiples of a power of two are a grid. Sums and products of its numbers are computed exactly
before they are rounded, so they are on a grid, too, and rounding leaves them there (`OnGrid.add`,
`OnGrid.mul`). A grid has no numbers near zero but zero itself. That is why

* a sum is `-0` only if both terms are (`add_ne_negative_zero`): numbers that do not cancel out have
  a sum that is not rounded to zero, and numbers that do leave `0`;
* a quotient is not zero if its numerator is on a grid and its denominator is not too great
  (`exists_div_eq_finite`).
-/

set_option autoImplicit false

namespace NaturalNames.Number

open Float.Model (Format UnpackedFloat totalExponent)
open Float.Model.UnpackedFloat (Accuracy Sign roundWithAccuracy normalize)

/-- A canonical multiple of `2 ^ g`, or no number. -/
structure OnGrid (g : Int) (u : UnpackedFloat) : Prop where
  isCanonical : (Reading.ofUnpacked u).IsCanonical
  isMultiple : IsMultiple g u

/-! ### Results in full length -/

/-- A multiple of `2 ^ g` that is not zero is at least `2 ^ g`. -/
theorem le_log2_add_of_dvd {g e : Int} {m : Nat} (hm : m ≠ 0) (h : 2 ^ (g - e).toNat ∣ m) :
    g ≤ m.log2 + e := by
  have hlog : (g - e).toNat ≤ m.log2 := (Nat.le_log2 hm).2 (Nat.le_of_dvd (by omega) h)
  omega

/-- Moving a number by some bits makes it longer by as many. -/
theorem log2_mul_two_pow {m : Nat} (hm : m ≠ 0) (n : Nat) : (m * 2 ^ n).log2 = m.log2 + n := by
  have hlow := Nat.log2_self_le hm
  have hhigh : m < 2 ^ (m.log2 + 1) := Nat.lt_log2_self
  rw [Nat.log2_eq_iff (Nat.mul_ne_zero hm (Nat.two_pow_pos n).ne')]
  constructor
  · rw [Nat.pow_add]
    exact Nat.mul_le_mul_right _ hlow
  · rw [Nat.add_right_comm, Nat.pow_add 2 (m.log2 + 1)]
    exact Nat.mul_lt_mul_of_pos_right hhigh (Nat.two_pow_pos n)

/-- A number is rounded with a full mantissa or with the least exponent. -/
theorem round_eq (sign : Sign) (m : Nat) (e : Int) :
    ∃ n : Nat, (m ≠ 0 → leastExponent < e - n → hiddenBit ≤ m * 2 ^ n) ∧
      UnpackedFloat.round Format.binary64 sign m e
        = roundWithAccuracy Format.binary64 sign (m * 2 ^ n) (e - n) .exact := by
  have hbits : (Format.binary64.mantissaBits : Int) = 53 := rfl
  have hleast : Format.binary64.minExponent = leastExponent := rfl
  have htarget : Format.binary64.targetExponent (totalExponent m e)
      = max (m.log2 + e - 52) leastExponent := by
    rw [Format.targetExponent, totalExponent, hbits, hleast]
    omega
  -- A mantissa that is too short is moved up, but not below the least exponent.
  refine ⟨(e - max (m.log2 + e - 52) leastExponent).toNat, ?_, ?_⟩
  · intro hm habove
    have hlog := log2_mul_two_pow hm (e - max (m.log2 + e - 52) leastExponent).toNat
    rw [hiddenBit_eq, ← Nat.le_log2 (Nat.mul_ne_zero hm (Nat.two_pow_pos _).ne'), hlog]
    omega
  · rw [UnpackedFloat.round, htarget]
    dsimp only [UnpackedFloat.decreaseExponent]
    rw [Nat.shiftLeft_eq]

/-- A mantissa on a grid stays on it when it is written with a lesser exponent. -/
theorem dvd_mul_two_pow {g e : Int} {m : Nat} (h : 2 ^ (g - e).toNat ∣ m) (n : Nat) :
    2 ^ (g - (e - n)).toNat ∣ m * 2 ^ n := by
  have hpow : 2 ^ (g - (e - n)).toNat ∣ 2 ^ (g - e).toNat * 2 ^ n := by
    rw [← Nat.pow_add]
    apply Nat.pow_dvd_pow
    omega
  exact Nat.dvd_trans hpow (Nat.mul_dvd_mul_right h _)

/-- Rounding a number on a grid gives one on the grid. -/
theorem onGrid_round {g : Int} {sign : Sign} {m : Nat} {e : Int} (hm : m ≠ 0)
    (h : 2 ^ (g - e).toNat ∣ m) : OnGrid g (UnpackedFloat.round Format.binary64 sign m e) := by
  obtain ⟨n, hfull, heq⟩ := round_eq sign m e
  rw [heq]
  exact ⟨isCanonical_roundWithAccuracy _ _ (hfull hm),
    isMultiple_roundWithAccuracy _ (dvd_mul_two_pow h n)⟩

/-- A number that is not below all normal ones is rounded to a finite number above zero. -/
theorem exists_round_eq_finite (sign : Sign) {m : Nat} {e : Int} (hm : m ≠ 0)
    (h : leastExponent ≤ m.log2 + e) :
    ∃ r e' hr, UnpackedFloat.round Format.binary64 sign m e = .finite sign r e' hr := by
  obtain ⟨n, -, heq⟩ := round_eq sign m e
  rw [heq]
  apply exists_roundWithAccuracy_eq_finite _ _ (Nat.mul_ne_zero hm (Nat.two_pow_pos n).ne')
  rw [log2_mul_two_pow hm]
  omega

/-- Rounding can carry into one more bit and no further. -/
theorem isBelow_round {k : Int} {sign : Sign} {m : Nat} {e : Int} (hm : m ≠ 0)
    (h : m.log2 + e < k) (hleast : leastExponent ≤ k) :
    IsBelow (k + 1) (UnpackedFloat.round Format.binary64 sign m e) := by
  obtain ⟨n, -, heq⟩ := round_eq sign m e
  rw [heq]
  apply isBelow_roundWithAccuracy _ _ _ hleast
  rw [log2_mul_two_pow hm]
  omega

/-- An integer is rounded by its size, with its sign put back. -/
theorem normalize_eq (m : Int) (e : Int) (zeroSign : Sign) :
    normalize Format.binary64 m e zeroSign = if m = 0 then .zero zeroSign
      else UnpackedFloat.round Format.binary64 (if m < 0 then .negative else .positive)
        m.natAbs e := by
  rw [UnpackedFloat.normalize]
  rcases Int.lt_trichotomy m 0 with h | rfl | h
  · have habs : (-m).toNat = m.natAbs := by omega
    rw [Int.compare_eq_lt.2 h, if_neg (by omega), if_pos h, ← habs]
  · rfl
  · have habs : m.toNat = m.natAbs := by omega
    rw [Int.compare_eq_gt.2 h, if_neg (by omega), if_neg (by omega), ← habs]

/-- An integer on a grid is rounded to a number on the grid. -/
theorem onGrid_normalize {g : Int} {m : Int} {e : Int} {zeroSign : Sign}
    (h : ((2 ^ (g - e).toNat : Nat) : Int) ∣ m) :
    OnGrid g (normalize Format.binary64 m e zeroSign) := by
  rw [normalize_eq]
  split
  next => exact ⟨isCanonical_zero zeroSign, trivial⟩
  next hne => exact onGrid_round (by omega) (Int.natCast_dvd.1 h)

/-! ### Sums -/

/-- Numbers are added at the lesser of their exponents. -/
theorem add_finite (s t : Sign) {m n : Nat} {d e : Int} (hm : 0 < m) (hn : 0 < n) :
    UnpackedFloat.add Format.binary64 (.finite s m d hm) (.finite t n e hn)
      = normalize Format.binary64 (s.apply (m * 2 ^ (d - min d e).toNat : Nat)
        + t.apply (n * 2 ^ (e - min d e).toNat : Nat)) (min d e) .positive := by
  rw [UnpackedFloat.add]
  dsimp only [UnpackedFloat.decreaseExponent]
  rw [Nat.shiftLeft_eq, Nat.shiftLeft_eq]

/-- A sign does not change what divides a number. -/
theorem dvd_apply {k : Nat} {n : Nat} (s : Sign) (h : k ∣ n) : (k : Int) ∣ s.apply n := by
  cases s with
  | positive => exact Int.natCast_dvd_natCast.2 h
  | negative => exact Int.dvd_neg.2 (Int.natCast_dvd_natCast.2 h)

/-- The sum of two mantissas, written with the lesser exponent, is on the grid that both are on. -/
theorem dvd_sum_of_dvd {g d e : Int} {m n : Nat} (s t : Sign) (hm : 2 ^ (g - d).toNat ∣ m)
    (hn : 2 ^ (g - e).toNat ∣ n) :
    ((2 ^ (g - min d e).toNat : Nat) : Int) ∣ s.apply (m * 2 ^ (d - min d e).toNat : Nat)
      + t.apply (n * 2 ^ (e - min d e).toNat : Nat) := by
  have hmin : min d e = d - (d - min d e).toNat := by omega
  have hmin' : min d e = e - (e - min d e).toNat := by omega
  have hleft := dvd_mul_two_pow hm (d - min d e).toNat
  have hright := dvd_mul_two_pow hn (e - min d e).toNat
  rw [← hmin] at hleft
  rw [← hmin'] at hright
  exact Int.dvd_add (dvd_apply s hleft) (dvd_apply t hright)

variable {u v : UnpackedFloat}

/-- A sum of numbers on a grid is on the grid. -/
theorem OnGrid.add {g : Int} (hu : OnGrid g u) (hv : OnGrid g v) :
    OnGrid g (UnpackedFloat.add Format.binary64 u v) := by
  cases u with
  | notANumber => exact ⟨trivial, trivial⟩
  | infinity s =>
    cases v with
    | infinity t =>
      cases s <;> cases t <;> exact ⟨trivial, trivial⟩
    | notANumber => exact ⟨trivial, trivial⟩
    | zero t => exact hu
    | finite t n e hn => exact hu
  | zero s =>
    cases v with
    | infinity t => exact hv
    | notANumber => exact hv
    | zero t =>
      cases s <;> cases t <;> exact ⟨isCanonical_zero _, trivial⟩
    | finite t n e hn => exact hv
  | finite s m d hm =>
    cases v with
    | infinity t => exact hv
    | notANumber => exact hv
    | zero t => exact hu
    | finite t n e hn =>
      -- Finite mantissas are added at the lesser exponent. All other sums are one of the terms.
      rw [add_finite]
      exact onGrid_normalize (dvd_sum_of_dvd s t hu.isMultiple hv.isMultiple)

/-- A sum that starts from anything but `-0` is not `-0`. -/
theorem add_ne_negative_zero (hu : (Reading.ofUnpacked u).IsCanonical)
    (hv : (Reading.ofUnpacked v).IsCanonical) (h : u ≠ .zero .negative) :
    UnpackedFloat.add Format.binary64 u v ≠ .zero .negative := by
  cases u with
  | notANumber => nofun
  | infinity s =>
    cases v with
    | infinity t => cases s <;> cases t <;> nofun
    | notANumber => nofun
    | zero t => nofun
    | finite t n e hn => nofun
  | zero s =>
    cases v with
    | infinity t => nofun
    | notANumber => nofun
    | zero t =>
      -- Of two zeros the sum is negative only if both are.
      cases s with
      | positive => cases t <;> nofun
      | negative => exact absurd rfl h
    | finite t n e hn => nofun
  | finite s m d hm =>
    cases v with
    | infinity t => nofun
    | notANumber => nofun
    | zero t => nofun
    | finite t n e hn =>
      have hd : leastExponent ≤ d := hu.2.1
      have he : leastExponent ≤ e := hv.2.1
      rw [add_finite, normalize_eq]
      split
      next => nofun
      -- A sum that is not zero is not rounded to zero, as both terms are multiples of the least
      -- number.
      next hne =>
        obtain ⟨r, e', hr, heq⟩ := exists_round_eq_finite
          (if s.apply (m * 2 ^ (d - min d e).toNat : Nat)
            + t.apply (n * 2 ^ (e - min d e).toNat : Nat) < 0 then .negative else .positive)
          (Int.natAbs_ne_zero.2 hne) (e := min d e) (by omega)
        rw [heq]
        nofun

/-! ### Products -/

/-- A product of finite numbers is that of the mantissas, with the exponents added, rounded once. -/
theorem mul_finite (s t : Sign) {m n : Nat} {d e : Int} (hm : 0 < m) (hn : 0 < n) :
    UnpackedFloat.mul Format.binary64 (.finite s m d hm) (.finite t n e hn)
      = roundWithAccuracy Format.binary64 (s * t) (m * n) (d + e) .exact := rfl

/-- A product of mantissas is on the grid whose exponent is the sum of the two. -/
theorem dvd_mul_of_dvd {g k d e : Int} {m n : Nat} (hm : 2 ^ (g - d).toNat ∣ m)
    (hn : 2 ^ (k - e).toNat ∣ n) : 2 ^ (g + k - (d + e)).toNat ∣ m * n := by
  have hpow : 2 ^ (g + k - (d + e)).toNat ∣ 2 ^ (g - d).toNat * 2 ^ (k - e).toNat := by
    rw [← Nat.pow_add]
    apply Nat.pow_dvd_pow
    omega
  exact Nat.dvd_trans hpow (Nat.mul_dvd_mul hm hn)

/-- A product of numbers is on the grid whose exponent is the sum of the two. -/
theorem OnGrid.mul {g k : Int} (hu : OnGrid g u) (hv : OnGrid k v) :
    OnGrid (g + k) (UnpackedFloat.mul Format.binary64 u v) := by
  cases u with
  | notANumber => exact ⟨trivial, trivial⟩
  | infinity s =>
    cases v with
    | infinity t => exact ⟨trivial, trivial⟩
    | notANumber => exact ⟨trivial, trivial⟩
    | zero t => exact ⟨trivial, trivial⟩
    | finite t n e hn => exact ⟨trivial, trivial⟩
  | zero s =>
    cases v with
    | infinity t => exact ⟨trivial, trivial⟩
    | notANumber => exact ⟨trivial, trivial⟩
    | zero t => exact ⟨isCanonical_zero _, trivial⟩
    | finite t n e hn => exact ⟨isCanonical_zero _, trivial⟩
  | finite s m d hm =>
    cases v with
    | infinity t => exact ⟨trivial, trivial⟩
    | notANumber => exact ⟨trivial, trivial⟩
    | zero t => exact ⟨isCanonical_zero _, trivial⟩
    | finite t n e hn =>
      obtain ⟨⟨-, hd, hfull⟩, hleft⟩ := hu
      obtain ⟨⟨-, he, hfull'⟩, hright⟩ := hv
      rw [mul_finite]
      refine ⟨isCanonical_roundWithAccuracy _ _ fun habove => ?_,
        isMultiple_roundWithAccuracy _ (dvd_mul_of_dvd hleft hright)⟩
      -- Two numbers with the least exponent have a product far below it.
      rcases Int.lt_or_le leastExponent d with hlt | hle
      · exact Nat.le_trans (hfull hlt) (Nat.le_mul_of_pos_right m hn)
      · have hlt : leastExponent < e := by
          unfold leastExponent at *
          omega
        exact Nat.le_trans (hfull' hlt) (Nat.le_mul_of_pos_left n hm)

/-! ### Quotients -/

/-- The quotient of two mantissas has as many bits as they leave. -/
theorem two_pow_le_div {m n shift bits : Nat} (hm : 0 < m) (hn : 0 < n)
    (h : m.log2 + shift = bits + (n.log2 + 1)) : 2 ^ bits ≤ m * 2 ^ shift / n := by
  rw [Nat.le_div_iff_mul_le hn]
  have hlow : 2 ^ m.log2 ≤ m := Nat.log2_self_le (by omega)
  have hhigh : n < 2 ^ (n.log2 + 1) := Nat.lt_log2_self
  calc 2 ^ bits * n ≤ 2 ^ bits * 2 ^ (n.log2 + 1) := Nat.mul_le_mul_left _ (Nat.le_of_lt hhigh)
    _ = 2 ^ m.log2 * 2 ^ shift := by rw [← Nat.pow_add, ← Nat.pow_add, h]
    _ ≤ m * 2 ^ shift := Nat.mul_le_mul_right _ hlow

/-- The mantissa that is divided is shifted so far that the quotient has 53 bits or the least
exponent. -/
theorem divCore_eq (m n : Nat) (d e : Int) :
    ∃ (shift : Nat) (e' : Int),
      e' = min (d - e) (max (m.log2 + d - (n.log2 + e) - 53) leastExponent) ∧
      (shift : Int) = d - e - e' ∧
      UnpackedFloat.divCore Format.binary64 m d n e
        = (m * 2 ^ shift / n, e', UnpackedFloat.accuracyOfFraction (m * 2 ^ shift % n) n) := by
  have hbits : (Format.binary64.mantissaBits : Int) = 53 := rfl
  have hleast : Format.binary64.minExponent = leastExponent := rfl
  have htarget : Format.binary64.targetExponent (totalExponent m d - totalExponent n e)
      = max (m.log2 + d - (n.log2 + e) - 53) leastExponent := by
    rw [Format.targetExponent, totalExponent, totalExponent, hbits, hleast]
    omega
  refine ⟨_, _, rfl, Int.toNat_of_nonneg (sub_nonneg.2 (min_le_left _ _)), ?_⟩
  rw [UnpackedFloat.divCore, htarget, Nat.shiftLeft_eq]

/-- The quotient of two mantissas has a bit for each of the hidden ones, unless it is too small. -/
theorem divCore_spec {m n : Nat} {d e : Int} (hm : 0 < m) (hn : 0 < n)
    (h : leastExponent + 53 ≤ m.log2 + d - (n.log2 + e)) :
    ∃ q e' accuracy, UnpackedFloat.divCore Format.binary64 m d n e = (q, e', accuracy) ∧
      hiddenBit ≤ q ∧ leastExponent ≤ q.log2 + e' := by
  obtain ⟨shift, e', he', hshift, hcore⟩ := divCore_eq m n d e
  refine ⟨_, _, _, hcore, ?_⟩
  -- The mantissas leave 53 bits at least.
  obtain ⟨bits, hbits⟩ : ∃ bits : Nat, m.log2 + shift = bits + (n.log2 + 1) :=
    ⟨m.log2 + shift - (n.log2 + 1), by omega⟩
  have hq : 2 ^ bits ≤ m * 2 ^ shift / n := two_pow_le_div hm hn hbits
  have hne : m * 2 ^ shift / n ≠ 0 := by
    have := Nat.two_pow_pos bits
    omega
  have hlog : bits ≤ (m * 2 ^ shift / n).log2 := (Nat.le_log2 hne).2 hq
  constructor
  · rw [hiddenBit_eq]
    exact Nat.le_trans (Nat.pow_le_pow_right (by omega) (by omega)) hq
  · omega

/-- A quotient that is not too small is rounded to a canonical number. -/
theorem exists_div_eq_finite (s t : Sign) {m n : Nat} {d e : Int} (hm : 0 < m) (hn : 0 < n)
    (h : leastExponent + 53 ≤ m.log2 + d - (n.log2 + e)) :
    ∃ r e' hr, UnpackedFloat.div Format.binary64 (.finite s m d hm) (.finite t n e hn)
      = .finite (s / t) r e' hr ∧
        (Reading.finite (Reading.isNegative (s / t)) r e').IsCanonical := by
  obtain ⟨q, e', accuracy, hcore, hq, hleast⟩ := divCore_spec hm hn h
  have hdiv : UnpackedFloat.div Format.binary64 (.finite s m d hm) (.finite t n e hn)
      = roundWithAccuracy Format.binary64 (s / t) q e' accuracy := by
    rw [UnpackedFloat.div, hcore]
  have hcanonical := isCanonical_roundWithAccuracy (s / t) accuracy (e := e') fun _ => hq
  obtain ⟨r, e'', hr, heq⟩ := exists_roundWithAccuracy_eq_finite (s / t) accuracy
    (ne_zero_of_hiddenBit_le hq) hleast
  rw [heq] at hcanonical
  exact ⟨r, e'', hr, hdiv.trans heq, hcanonical⟩

end NaturalNames.Number
