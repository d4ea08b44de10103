import NaturalNames.Number.Arithmetic
import NaturalNames.Ordered.Map

/-!
# `NaturalNames.Prior.Distribution`: conditional frequencies

How often an element was seen under a condition, and from that the share of the element among
all that was seen there. The totals are kept beside the counts. Both are numbers of any size;
`NaturalNames.Proofs.Prior.Words` says when words of 64 bits hold them.
-/

set_option autoImplicit false

namespace NaturalNames

/-- Counts of elements under conditions. -/
structure Distribution where
  counts : SortedMap String (Tally String)
  /-- The sum of the counts under each condition. -/
  totals : Tally String
deriving DecidableEq

namespace Distribution

/-- The distribution of no observation. -/
def empty : Distribution := ⟨.empty, .empty⟩

/-- Counts an element another `n` times under a condition. A count of zero is recorded, too. -/
def addCount (d : Distribution) (element given : String) (n : Nat) : Distribution where
  counts := d.counts.alter given fun old => Tally.add (old.getD .empty) element n
  totals := Tally.add d.totals given n

/-- Counts one observation. -/
def add (d : Distribution) (element given : String) : Distribution := d.addCount element given 1

/-- The count of an element under a condition. -/
def count (d : Distribution) (element given : String) : Nat :=
  ((d.counts.get? given).map fun tally => Tally.count tally element).getD 0

/-- The share of an element under a condition, zero where nothing was seen. -/
def probability {α : Type} [Arithmetic α] (d : Distribution) (element given : String) : α :=
  let total := Tally.count d.totals given
  if 0 < total then Arithmetic.ofNat (d.count element given) / Arithmetic.ofNat total
  else Arithmetic.ofNat 0

/-- The first entry with the greatest count. -/
def mostCounted : List (String × Nat) → Option (String × Nat)
  | [] => none
  | entry :: rest =>
    match mostCounted rest with
    | some best => if entry.2 < best.2 then some best else some entry
    | none => some entry

/-- The element seen most often under a condition. Of several the first in order. -/
def mostLikely? (d : Distribution) (given : String) : Option String :=
  (d.counts.get? given).bind fun tally => (mostCounted tally.entries).map Prod.fst

/-- The observations of a distribution, each with its condition and count. -/
def observations (d : Distribution) : List (String × String × Nat) :=
  d.counts.entries.flatMap fun (given, tally) =>
    tally.entries.map fun (element, n) => (element, given, n)

/-- Adds the counts of `b` to those of `a`. -/
def merge (a b : Distribution) : Distribution :=
  b.observations.foldl (fun d (element, given, n) => d.addCount element given n) a

end Distribution

end NaturalNames
