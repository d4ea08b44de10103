import NaturalNames.Number.Binary

/-!
# `NaturalNames.Number.Arithmetic`: the numbers that scores are computed in

Scores are computed in floats, while most of what is to be said about them holds of exact
numbers only. So everything that adds up, divides or compares scores is written over a type of
numbers with the operations below. `Float` is the type it runs on; an ordered field with a
logarithm is one in which its rules can be stated without rounding.

Settings and models hold floats in either case. `ofFloat` reads them.
-/

set_option autoImplicit false

namespace NaturalNames

/-- A type of numbers with the operations of scoring. -/
class Arithmetic (α : Type) extends Add α, Sub α, Mul α, Div α, Neg α, LT α, LE α where
  ofNat : Nat → α
  /-- The number that a float stands for. -/
  ofFloat : Float → α
  /-- The logarithm with base two. -/
  log2 : α → α
  /-- Two to the power of a number. -/
  exp2 : α → α
  isFinite : α → Bool
  decidableLT : DecidableLT α
  decidableLE : DecidableLE α
  /-- A total order, also of values that `<` leaves unordered. -/
  order : α → α → Ordering
  order_trans : Std.TransCmp order

namespace Arithmetic

variable {α : Type} [Arithmetic α]

instance : DecidableLT α := decidableLT

instance : DecidableLE α := decidableLE

instance : Std.TransCmp (order : α → α → Ordering) := order_trans

/-- The sum of a list, from left to right. It starts from `-0`, the one float that changes no
other when added, so the empty sum is `-0`. -/
def sum (xs : List α) : α := xs.foldl (· + ·) (-ofNat 0)

end Arithmetic

/-- A type of numbers that are written as floats. -/
class FloatValued (α : Type) where
  /-- The float that stands for a number in texts. -/
  toFloat : α → Float

instance : FloatValued Float := ⟨id⟩

instance : Arithmetic Float where
  ofNat := Float.ofNat
  ofFloat := id
  log2 := Float.log2
  exp2 := Float.exp2
  isFinite := Number.isFinite
  decidableLT := inferInstance
  decidableLE := inferInstance
  order := Number.totalCompare
  order_trans := Number.transCmp_totalCompare

end NaturalNames
