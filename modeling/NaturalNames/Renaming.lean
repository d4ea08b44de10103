import NaturalNames.NGram
import NaturalNames.Number.Arithmetic
import NaturalNames.Number.Decimal
import NaturalNames.Scope

/-!
# `NaturalNames.Renaming`: scored names

The lower its score, the more natural a name is. A ranking lists names by score, and by name
where scores are equal.
-/

set_option autoImplicit false

namespace NaturalNames

/-- A name proposed for an identifier. -/
structure Renaming (α : Type) where
  name : String
  /-- Bits per context, on average, that it takes to expect the name. -/
  score : α
  /-- About how many occurrences the score was computed from. -/
  contexts : Nat
  scope : Option Scope

namespace Renaming

variable {α : Type}

/-- Whether this stands for any name the model does not know. -/
def isUnknown (r : Renaming α) : Bool := r.name = unknownSymbol

/-- By score, then by name. -/
def order [Arithmetic α] : Renaming α → Renaming α → Ordering :=
  compareLex (fun a b => Arithmetic.order a.score b.score) (compareOn name)

instance [Arithmetic α] : Ord (Renaming α) := ⟨order⟩

instance [Arithmetic α] : Std.TransCmp (fun a b : Renaming α => Arithmetic.order a.score b.score)
    where
  eq_swap := (Arithmetic.order_trans (α := α)).eq_swap
  isLE_trans := (Arithmetic.order_trans (α := α)).isLE_trans

instance [Arithmetic α] : Std.TransOrd (Renaming α) :=
  inferInstanceAs (Std.TransCmp (compareLex _ _))

/-- The name and its score to three places. -/
def toText [FloatValued α] (r : Renaming α) : String :=
  r.name ++ ":" ++ Number.fixed 3 (FloatValued.toFloat r.score)

end Renaming

/-- Names for one identifier, the most natural first. -/
abbrev Ranking (α : Type) [Arithmetic α] := SortedSet (Renaming α)

end NaturalNames
