/-!
# `NaturalNames.Number.Binary`: the exact value of a float

A finite float is a whole number times a power of two. `Reading.ofFloat` takes the 64 bits apart
and gives sign, whole number and exponent; from there on, printing and rounding are arithmetic
on natural numbers. `orderKey` places all floats on one line, NaN and both zeros included.

Powers are written with `Nat.pow` and not with `^`, which more than one instance can stand for.
-/

set_option autoImplicit false

namespace NaturalNames.Number

/-- What the bits of a float say. -/
inductive Reading where
  | nan
  | infinite (negative : Bool)
  /-- The number `± significand · 2 ^ exponent`. -/
  | finite (negative : Bool) (significand : Nat) (exponent : Int)
deriving DecidableEq, Repr

/-- The implicit leading bit of a normal float. -/
def hiddenBit : Nat := Nat.pow 2 52

/-- The bit of the sign. -/
def signBit : Nat := Nat.pow 2 63

/-- The exponent of the least float above zero. -/
def leastExponent : Int := -1074

/-- Reads a float: one bit of sign, eleven of exponent, 52 of fraction. Exponent zero means a
number without the hidden bit, the greatest exponent means infinity or NaN. -/
def Reading.ofFloat (x : Float) : Reading :=
  let bits := x.toBits.toNat
  let negative := decide (signBit ≤ bits)
  let biased := bits / hiddenBit % 2048
  let fraction := bits % hiddenBit
  if biased = 2047 then
    if fraction = 0 then .infinite negative else .nan
  else if biased = 0 then .finite negative fraction leastExponent
  else .finite negative (hiddenBit + fraction) (leastExponent + (biased - 1 : Nat))

/-- Whether a float is a number, and not an infinity. -/
def isFinite (x : Float) : Bool :=
  match Reading.ofFloat x with
  | .finite _ _ _ => true
  | _ => false

/-- The place of a float in the total order of its format: the negative numbers from `-∞` up,
`-0`, `0`, the positive numbers up to `∞`, and last NaN. -/
def orderKey (x : Float) : Nat :=
  let bits := x.toBits.toNat
  if bits < signBit then signBit + bits else 2 * signBit - 1 - bits

/-- The total order of the format. Unlike `<`, it tells the two zeros apart and places NaN. -/
def totalCompare : Float → Float → Ordering := compareOn orderKey

instance transCmp_totalCompare : Std.TransCmp totalCompare :=
  inferInstanceAs (Std.TransCmp (compareOn orderKey))

/-- The least natural number at or above `significand · 2 ^ exponent`. -/
def ceilScaled (significand : Nat) (exponent : Int) : Nat :=
  if 0 ≤ exponent then significand * Nat.pow 2 exponent.toNat
  else
    let unit := Nat.pow 2 (-exponent).toNat
    (significand + (unit - 1)) / unit

end NaturalNames.Number
