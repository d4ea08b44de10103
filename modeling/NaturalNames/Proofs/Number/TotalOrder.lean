import NaturalNames.Proofs.Number.Bits

/-!
# `NaturalNames.Proofs.Number.TotalOrder`: the total order of floats against `≤`

Scores are compared by `≤` where a ranking is cut off, and by a total order where it is listed. The
two differ: the total order tells the zeros apart and places NaN.

Put in one row, the numbers and the infinities have places that are counted from zero in both
directions (`Reading.place`). `≤` is the order of places (`le_iff_place`). The total order goes by
the bits, and these are the place with a sign in front (`Reading.place_ofFloat`), so no step of it
leads back in the row (`place_le_of_totalCompare`).

Hence a step up in the total order may follow `≤`, unless it leads to NaN
(`le_of_le_of_totalCompare`).
-/

set_option autoImplicit false

namespace NaturalNames.Number

open Float.Model (UnpackedFloat)

namespace Reading

/-- A number with a sign. -/
def signed (negative : Bool) (n : Int) : Int := if negative then -n else n

/-- The place in the row of all numbers and infinities, counted from zero. -/
def place : Reading → Int
  | .nan => 0
  | .infinite negative => signed negative (2047 * hiddenBit)
  | .finite negative significand exponent =>
    signed negative ((exponent - leastExponent) * hiddenBit + significand)

/-- A reading that has a place: infinity, or a canonical number below it. -/
def IsPlaced : Reading → Prop
  | .nan => False
  | .infinite _ => True
  | .finite negative significand exponent =>
    IsCanonical (.finite negative significand exponent) ∧ exponent ≤ leastExponent + 2045

/-- A float that is a number has a place. -/
theorem isPlaced_ofFloat {x : Float} (h : ofFloat x ≠ .nan) : (ofFloat x).IsPlaced := by
  have hbiased : x.toBits.toNat / hiddenBit % 2048 < 2048 := Nat.mod_lt _ (by decide)
  have hcanonical := isCanonical_ofFloat x
  unfold ofFloat at h hcanonical ⊢
  dsimp only at h hcanonical ⊢
  split_ifs at h hcanonical ⊢ with hmax hinfinite hsubnormal
  · trivial
  · exact absurd rfl h
  · exact ⟨hcanonical, by omega⟩
  · exact ⟨hcanonical, by omega⟩

/-- Without the sign the bits are the exponent above the mantissa. -/
theorem mod_signBit_eq (bits : Nat) :
    bits % signBit = bits / hiddenBit % 2048 * hiddenBit + bits % hiddenBit := by
  rw [signBit_eq, hiddenBit_eq]
  omega

/-- The bits behind the sign are the place without its sign. -/
theorem place_ofFloat {x : Float} (h : ofFloat x ≠ .nan) :
    (ofFloat x).place
      = signed (signBit ≤ x.toBits.toNat) ((x.toBits.toNat % signBit : Nat) : Int) := by
  rw [mod_signBit_eq]
  unfold ofFloat at h ⊢
  dsimp only at h ⊢
  split_ifs at h ⊢ with hmax hinfinite hsubnormal
  · rw [place, hmax, hinfinite]
    rfl
  · exact absurd rfl h
  · rw [place, hsubnormal]
    congr 1
  · -- The hidden bit makes up for the one that is taken from the exponent.
    rw [place]
    congr 1
    rw [hiddenBit_eq] at *
    omega

/-! ### Comparison -/

/-- Canonical numbers compare by exponent, and by significand if the exponents agree. -/
theorem compare_place_finite {m n : Nat} {d e : Int} (hm : IsPlaced (.finite false m d))
    (hn : IsPlaced (.finite false n e)) :
    compare ((d - leastExponent) * hiddenBit + m) ((e - leastExponent) * hiddenBit + n)
      = (compare d e).then (compare m n) := by
  obtain ⟨⟨hm, hd, hm'⟩, -⟩ := hm
  obtain ⟨⟨hn, he, hn'⟩, -⟩ := hn
  rw [hiddenBit_eq] at *
  rcases Int.lt_trichotomy d e with h | rfl | h
  · -- With a greater exponent the mantissa has the hidden bit, which makes up for any lesser one.
    rw [Int.compare_eq_lt.2 h, Int.compare_eq_lt.2 (by omega)]
    rfl
  · rw [Std.ReflOrd.compare_self, Ordering.eq_then]
    rcases Nat.lt_trichotomy m n with h | rfl | h
    · rw [Nat.compare_eq_lt.2 h, Int.compare_eq_lt.2 (by omega)]
    · rw [Std.ReflOrd.compare_self, Std.ReflOrd.compare_self]
    · rw [Nat.compare_eq_gt.2 h, Int.compare_eq_gt.2 (by omega)]
  · rw [Int.compare_eq_gt.2 h, Int.compare_eq_gt.2 (by omega)]
    rfl

/-- Positive numbers stand at positive places. -/
theorem place_pos {m : Nat} {e : Int} (hm : 0 < m) (h : IsPlaced (.finite false m e)) :
    0 < place (.finite false m e) := by
  show 0 < (e - leastExponent) * hiddenBit + m
  obtain ⟨⟨-, he, -⟩, -⟩ := h
  rw [hiddenBit_eq]
  omega

/-- Negative numbers stand at negative places. -/
theorem place_neg {m : Nat} {e : Int} (hm : 0 < m) (h : IsPlaced (.finite true m e)) :
    place (.finite true m e) < 0 :=
  Int.neg_neg_of_pos (place_pos hm h)

/-- Both zeros stand at the place zero. -/
theorem place_zero (negative : Bool) : place (.finite negative 0 leastExponent) = 0 := by
  cases negative <;> rfl

/-- Numbers are between the infinities. -/
theorem place_mem_Ioo {negative : Bool} {m : Nat} {e : Int}
    (h : IsPlaced (.finite negative m e)) :
    place (.infinite true) < place (.finite negative m e) ∧
      place (.finite negative m e) < place (.infinite false) := by
  obtain ⟨⟨hm, he, -⟩, he'⟩ := h
  simp only [place, signed]
  rw [hiddenBit_eq] at *
  cases negative <;> simp only [if_true, if_false, Bool.false_eq_true] <;> omega

/-- Opposite integers compare the other way round. -/
theorem compare_neg (i j : Int) : compare (-i) (-j) = (compare i j).swap := by
  rcases Int.lt_trichotomy i j with h | rfl | h
  · rw [Int.compare_eq_lt.2 h, Int.compare_eq_gt.2 (Int.neg_lt_neg h)]
    rfl
  · rw [Std.ReflOrd.compare_self, Std.ReflOrd.compare_self]
    rfl
  · rw [Int.compare_eq_gt.2 h, Int.compare_eq_lt.2 (Int.neg_lt_neg h)]
    rfl

/-- What compares does so by place. -/
theorem compare_eq_compare_place {a b : UnpackedFloat} (ha : (ofUnpacked a).IsPlaced)
    (hb : (ofUnpacked b).IsPlaced) :
    a.compare b = some (compare (ofUnpacked a).place (ofUnpacked b).place) := by
  -- Zero and the infinities are told from all others by sign. Only two numbers of one sign are
  -- compared by their parts, and those are in the order of their places.
  cases a with
  | notANumber => exact absurd ha id
  | infinity s =>
    cases b with
    | notANumber => exact absurd hb id
    | infinity t => cases s <;> cases t <;> decide
    | zero t => cases s <;> cases t <;> decide
    | finite t n e hn =>
      cases s with
      | positive => exact congrArg some (Int.compare_eq_gt.2 (place_mem_Ioo hb).2).symm
      | negative => exact congrArg some (Int.compare_eq_lt.2 (place_mem_Ioo hb).1).symm
  | zero s =>
    cases b with
    | notANumber => exact absurd hb id
    | infinity t => cases s <;> cases t <;> decide
    | zero t => cases s <;> cases t <;> decide
    | finite t n e hn =>
      have hzero : (ofUnpacked (.zero s)).place = 0 := place_zero _
      rw [hzero]
      cases t with
      | positive => exact congrArg some (Int.compare_eq_lt.2 (place_pos hn hb)).symm
      | negative => exact congrArg some (Int.compare_eq_gt.2 (place_neg hn hb)).symm
  | finite s m d hm =>
    cases b with
    | notANumber => exact absurd hb id
    | infinity t =>
      cases t with
      | positive => cases s <;> exact congrArg some (Int.compare_eq_lt.2 (place_mem_Ioo ha).2).symm
      | negative => cases s <;> exact congrArg some (Int.compare_eq_gt.2 (place_mem_Ioo ha).1).symm
    | zero t =>
      have hzero : (ofUnpacked (.zero t)).place = 0 := place_zero _
      rw [hzero]
      cases s with
      | positive => exact congrArg some (Int.compare_eq_gt.2 (place_pos hm ha)).symm
      | negative => exact congrArg some (Int.compare_eq_lt.2 (place_neg hm ha)).symm
    | finite t n e hn =>
      have hparts := compare_place_finite ha hb
      cases s with
      | positive =>
        cases t with
        | positive => exact congrArg some hparts.symm
        | negative =>
          exact congrArg some
            (Int.compare_eq_gt.2 ((place_neg hn hb).trans (place_pos hm ha))).symm
      | negative =>
        cases t with
        | positive =>
          exact congrArg some
            (Int.compare_eq_lt.2 ((place_neg hm ha).trans (place_pos hn hb))).symm
        | negative =>
          exact congrArg some ((compare_neg _ _).trans (congrArg Ordering.swap hparts)).symm

end Reading

/-! ### Floats -/

variable {x y z : Float}

/-- By their bits the same floats are numbers. -/
theorem ofFloat_ne_nan_iff : Reading.ofFloat x ≠ .nan ↔ x.isNaN = false := by
  rw [Reading.ofFloat_eq_ofUnpacked]
  show _ ↔ x.toModel.unpack.isNaN = false
  cases x.toModel.unpack <;> simp [Reading.ofUnpacked, UnpackedFloat.isNaN]

/-- The place of a float. -/
def place (x : Float) : Int := (Reading.ofFloat x).place

/-- Numbers compare as their places do, the infinities too. -/
theorem compare_unpack_eq_compare_place (hx : x.isNaN = false) (hy : y.isNaN = false) :
    x.toModel.unpack.compare y.toModel.unpack = some (compare (place x) (place y)) := by
  have hplaced {z : Float} (hz : z.isNaN = false) :
      (Reading.ofUnpacked z.toModel.unpack).IsPlaced := by
    rw [← Reading.ofFloat_eq_ofUnpacked]
    exact Reading.isPlaced_ofFloat (ofFloat_ne_nan_iff.2 hz)
  rw [place, place, Reading.ofFloat_eq_ofUnpacked, Reading.ofFloat_eq_ofUnpacked]
  exact Reading.compare_eq_compare_place (hplaced hx) (hplaced hy)

/-- A number is at most another if its place is. -/
theorem le_iff_place (hx : x.isNaN = false) (hy : y.isNaN = false) : x ≤ y ↔ place x ≤ place y := by
  simp only [le_iff_compare, compare_unpack_eq_compare_place hx hy, Option.some.injEq,
    exists_eq_left', Int.isLE_compare]

/-- NaN is on neither side of `≤`. -/
theorem isNaN_of_le (h : x ≤ y) : x.isNaN = false ∧ y.isNaN = false := by
  obtain ⟨o, ho, -⟩ := le_iff_compare.1 h
  show x.toModel.unpack.isNaN = false ∧ y.toModel.unpack.isNaN = false
  constructor
  · cases hx : x.toModel.unpack with
    | notANumber => rw [hx] at ho; cases ho
    | _ => rfl
  · cases hy : y.toModel.unpack with
    | notANumber => rw [hy, compare_notANumber] at ho; cases ho
    | _ => rfl

/-- The key of the total order is the place, shifted to the natural numbers. It is one less on the
negative side, where a zero of its own stands. -/
theorem orderKey_cases (hx : x.isNaN = false) :
    0 ≤ place x ∧ (orderKey x : Int) = signBit + place x ∨
      place x ≤ 0 ∧ (orderKey x : Int) = signBit - 1 + place x := by
  have hbits : x.toBits.toNat < 2 ^ 64 := x.toBits.toNat_lt
  rw [place, Reading.place_ofFloat (ofFloat_ne_nan_iff.2 hx), Reading.signed, orderKey]
  rw [signBit_eq]
  by_cases hsign : x.toBits.toNat < 2 ^ 63
  · refine .inl ?_
    simp only [hsign, if_true, Nat.not_le.2 hsign, decide_false, Bool.false_eq_true, if_false]
    omega
  · refine .inr ?_
    simp only [hsign, if_false, Nat.not_lt.1 hsign, decide_true, if_true]
    omega

/-- What is not behind in the total order is not behind in the row. -/
theorem place_le_of_totalCompare (hx : x.isNaN = false) (hy : y.isNaN = false)
    (h : (totalCompare x y).isLE) : place x ≤ place y := by
  have hkey : orderKey x ≤ orderKey y := Nat.isLE_compare.1 h
  have hxkey := orderKey_cases hx
  have hykey := orderKey_cases hy
  omega

/-- `≤` goes on with a step in the total order, unless that leads to NaN. -/
theorem le_of_le_of_totalCompare (h : x ≤ y) (hz : z.isNaN = false)
    (hyz : (totalCompare y z).isLE) : x ≤ z := by
  obtain ⟨hx, hy⟩ := isNaN_of_le h
  rw [le_iff_place hx hz]
  exact ((le_iff_place hx hy).1 h).trans (place_le_of_totalCompare hy hz hyz)

end NaturalNames.Number
