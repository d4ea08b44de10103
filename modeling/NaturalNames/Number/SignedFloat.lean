import NaturalNames.Number.Arithmetic

/-!
# `NaturalNames.Number.SignedFloat`: floats that keep the sign of NaN

Where a prior is infinite or contexts weigh nothing, a score is `∞ - ∞` or `0 / 0`, which is NaN.
NaN has a sign, and a total order of floats goes by it: a negative NaN is below all numbers, a
positive one above. A `Float` does not tell the sign of NaN, so a ranking that has to place such
scores computes with `SignedFloat`.

The rule for the sign is that of common processors. An operation on numbers that has no result
gives a negative NaN, an operation on a NaN hands it on, and negation turns it. A NaN that comes
with the input is positive; `key_ofFloat` says that what comes with the input is ordered as floats
are.
-/

set_option autoImplicit false

namespace NaturalNames.Number

/-- A float with the sign that it has if it is NaN. -/
structure SignedFloat where
  value : Float
  /-- Whether the value is a negative NaN. -/
  isNegativeNaN : Bool
deriving BEq

namespace SignedFloat

/-- A float of the input. -/
def ofFloat (x : Float) : SignedFloat := ⟨x, false⟩

/-- The result of an operation: the first operand that is NaN, if there is one. -/
def ofResult (operands : List SignedFloat) (result : Float) : SignedFloat :=
  match operands.find? fun x => x.value.isNaN with
  | some nan => nan
  | none => ⟨result, result.isNaN⟩

/-- The opposite. A value that is no number changes its sign, too. -/
def neg (x : SignedFloat) : SignedFloat := ⟨-x.value, x.value.isNaN && !x.isNegativeNaN⟩

/-- The place in the total order: a negative NaN, then the places of floats. -/
def key (x : SignedFloat) : Nat := if x.isNegativeNaN then 0 else orderKey x.value + 1

/-- The key of a float that comes from outside is its place in the total order, moved up by one. -/
theorem key_ofFloat (x : Float) : (ofFloat x).key = orderKey x + 1 := rfl

instance : Arithmetic SignedFloat where
  add x y := ofResult [x, y] (x.value + y.value)
  sub x y := ofResult [x, y] (x.value - y.value)
  mul x y := ofResult [x, y] (x.value * y.value)
  div x y := ofResult [x, y] (x.value / y.value)
  neg := neg
  lt x y := x.value < y.value
  le x y := x.value ≤ y.value
  ofNat n := ofFloat (Float.ofNat n)
  ofFloat := ofFloat
  log2 x := ofResult [x] x.value.log2
  exp2 x := ofResult [x] x.value.exp2
  isFinite x := Number.isFinite x.value
  decidableLT x y := inferInstanceAs (Decidable (x.value < y.value))
  decidableLE x y := inferInstanceAs (Decidable (x.value ≤ y.value))
  order := compareOn key
  order_trans := inferInstanceAs (Std.TransCmp (compareOn key))

instance : FloatValued SignedFloat := ⟨value⟩

end SignedFloat

end NaturalNames.Number
