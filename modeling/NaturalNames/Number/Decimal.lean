import NaturalNames.Number.Binary

/-!
# `NaturalNames.Number.Decimal`: floats as decimal text

Reports write numbers in two ways, both from the exact binary value.

* `fixed` rounds to a given number of places. A tie goes to the even digit.
* `shortest` writes the fewest digits that read back as the same float, of those the nearest to
  the float, and always without an exponent. Of two equally near the greater is taken.

A sign is kept also in front of zero. `NaN`, `inf` and `-inf` are written as such.
-/

set_option autoImplicit false

namespace NaturalNames.Number

/-! ### Digits -/

/-- The decimal digits of a natural number. -/
def digits (n : Nat) : String := String.ofList (Nat.toDigits 10 n)

/-- `digits`, filled up with zeros in front to a width. -/
def paddedDigits (width n : Nat) : List Char :=
  let ds := Nat.toDigits 10 n
  List.replicate (width - ds.length) '0' ++ ds

/-- The number `n / 10 ^ places`, with exactly that many places behind the point. -/
def withPoint (places n : Nat) : String :=
  if places = 0 then digits n
  else
    let unit := Nat.pow 10 places
    digits (n / unit) ++ "." ++ String.ofList (paddedDigits places (n % unit))

/-- The text with a sign in front if the number is negative. -/
def signed (negative : Bool) (text : String) : String :=
  if negative then "-" ++ text else text

/-! ### A fixed number of places -/

/-- The quotient rounded to the nearest whole number, a tie to the even one. -/
def roundDiv (num den : Nat) : Nat :=
  let q := num / den
  match compare (2 * (num % den)) den with
  | .lt => q
  | .gt => q + 1
  | .eq => if q % 2 = 0 then q else q + 1

/-- `significand · 2 ^ exponent · 10 ^ scale`, rounded to a whole number. -/
def roundScaled (significand : Nat) (exponent scale : Int) : Nat :=
  roundDiv (significand * Nat.pow 2 exponent.toNat * Nat.pow 10 scale.toNat)
    (Nat.pow 2 (-exponent).toNat * Nat.pow 10 (-scale).toNat)

/-- A float with a fixed number of decimal places. -/
def fixed (places : Nat) (x : Float) : String :=
  match Reading.ofFloat x with
  | .nan => "NaN"
  | .infinite negative => signed negative "inf"
  | .finite negative significand exponent =>
    signed negative (withPoint places (roundScaled significand exponent places))

/-! ### The shortest text that reads back -/

/-- The numbers that round to one float, as multiples of `2 ^ exponent`: those between `low` and
`high`. The ends belong to it when a tie would go to this float. -/
structure Rounding where
  low : Nat
  value : Nat
  high : Nat
  exponent : Int
  endsIncluded : Bool

/-- Half the distance to the next float on either side, in quarters of the last bit. Below a
power of two the floats lie twice as dense. -/
def Rounding.of (significand : Nat) (exponent : Int) : Rounding where
  low := 4 * significand -
    if significand = hiddenBit ∧ leastExponent < exponent then 1 else 2
  value := 4 * significand
  high := 4 * significand + 2
  exponent := exponent - 2
  endsIncluded := significand % 2 = 0

/-- The multiple of `10 ^ scale` that rounds to the float and lies nearest to it. Only the two
multiples around the float can qualify. -/
def Rounding.onGrid? (r : Rounding) (scale : Int) : Option Nat :=
  let unit := Nat.pow 2 r.exponent.toNat * Nat.pow 10 (-scale).toNat
  let step := Nat.pow 2 (-r.exponent).toNat * Nat.pow 10 scale.toNat
  let inside (n : Nat) : Bool :=
    if r.endsIncluded then decide (r.low * unit ≤ n * step ∧ n * step ≤ r.high * unit)
    else decide (r.low * unit < n * step ∧ n * step < r.high * unit)
  let below := r.value * unit / step
  let above := below + 1
  match inside below, inside above with
  | true, true =>
    if above * step - r.value * unit ≤ r.value * unit - below * step then some above else some below
  | true, false => some below
  | false, true => some above
  | false, false => none

/-- The coarsest grid with a hit, looked for from `scale` down. -/
def Rounding.search (r : Rounding) (scale : Int) : Nat → Option (Nat × Int)
  | 0 => none
  | tries + 1 =>
    match r.onGrid? scale with
    | some n => some (n, scale)
    | none => r.search (scale - 1) tries

/-- `n · 10 ^ scale` without an exponent. -/
def positional (n : Nat) (scale : Int) : String :=
  if 0 ≤ scale then digits (n * Nat.pow 10 scale.toNat) else withPoint (-scale).toNat n

/-- A power of ten not below `significand · 2 ^ exponent` and less than a thousand times it: one
binary digit is worth `0.30103` decimal ones. -/
def scaleAbove (significand : Nat) (exponent : Int) : Int :=
  (exponent + (Nat.log2 significand + 1 : Nat)) * 30103 / 100000 + 1

/-- A float with the fewest digits that read back as the same float. Seventeen digits always
do. -/
def shortest (x : Float) : String :=
  match Reading.ofFloat x with
  | .nan => "NaN"
  | .infinite negative => signed negative "inf"
  | .finite negative significand exponent =>
    signed negative <|
      if significand = 0 then "0"
      else
        match (Rounding.of significand exponent).search (scaleAbove significand exponent) 25 with
        | some (n, scale) => positional n scale
        | none => positional (roundScaled significand exponent 1074) (-1074)

end NaturalNames.Number
