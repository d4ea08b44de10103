import Mathlib.Analysis.SpecialFunctions.Log.Base
import Mathlib.Analysis.SpecialFunctions.Pow.Real
import NaturalNames.Number.Arithmetic
import NaturalNames.Proofs.Number.Exact

/-!
# `NaturalNames.Proofs.Number.Real`: scores in exact arithmetic

The real numbers are a type of numbers to compute scores in. Nothing is rounded then, and a float
of a setting or a model counts as the number it stands for. What is said of scores "in exact
arithmetic" is said of this instance.
-/

set_option autoImplicit false

namespace NaturalNames

noncomputable instance : Arithmetic ℝ where
  ofNat n := n
  ofFloat x := Number.exact x
  log2 := Real.logb 2
  exp2 x := 2 ^ x
  isFinite _ := true
  decidableLT := inferInstance
  decidableLE := inferInstance
  order := compare
  order_trans := inferInstance

namespace Arithmetic

/-- In real arithmetic a natural number is itself. -/
theorem ofNat_real (n : Nat) : (ofNat n : ℝ) = n := rfl

/-- In real arithmetic a float is the number that it stands for. -/
theorem ofFloat_real (x : Float) : (ofFloat x : ℝ) = (Number.exact x : ℝ) := rfl

end Arithmetic

end NaturalNames
