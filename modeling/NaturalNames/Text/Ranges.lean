/-!
# `NaturalNames.Text.Ranges`: sets of code points

A character class is a list of intervals of code points. Membership is a plain search: the
classes are asked about characters outside ASCII only, which are rare in program text, and a
search that every reader can see through is worth more here than a fast one.
-/

set_option autoImplicit false

namespace NaturalNames.Text

/-- A set of code points as a list of intervals, both ends included. -/
abbrev Ranges := List (Nat × Nat)

/-- Whether the code point of `c` lies in one of the intervals. -/
def Ranges.hold (ranges : Ranges) (c : Char) : Bool :=
  ranges.any fun r => decide (r.1 ≤ c.toNat) && decide (c.toNat ≤ r.2)

/-- Ranges hold a character if one of them does. -/
theorem Ranges.hold_iff {ranges : Ranges} {c : Char} :
    ranges.hold c = true ↔ ∃ r ∈ ranges, r.1 ≤ c.toNat ∧ c.toNat ≤ r.2 := by
  simp [Ranges.hold]

end NaturalNames.Text
