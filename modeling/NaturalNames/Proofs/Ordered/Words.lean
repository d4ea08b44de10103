import Mathlib.Data.List.Induction
import NaturalNames.Proofs.Ordered.Tally

/-!
# `NaturalNames.Proofs.Ordered.Words`: tallies of 64 bits

The counts of a tally are numbers of any size here. Where a machine keeps them in words of 64 bits
it has `Tally.wrap` of the tally: the same keys, each with its count modulo `2 ^ 64`. It does not
matter whether this is done at each addition or once at the end (`Tally.foldl_addWord`). If no count
reaches `2 ^ 64` the words are the counts (`Tally.wrap_eq_self`).
-/

set_option autoImplicit false

namespace NaturalNames

namespace SortedMap

variable {κ ν μ : Type} [Ord κ]

/-- The map with every value changed by `f`. -/
def mapValues (f : ν → μ) (m : SortedMap κ ν) : SortedMap κ μ :=
  ⟨m.entries.map fun e => (e.1, f e.2), m.ascending.mapValues f⟩

/-- A map of values that stay as they are stays as it is. -/
theorem mapValues_eq_self {f : ν → ν} {m : SortedMap κ ν} (h : ∀ e ∈ m.entries, f e.2 = e.2) :
    m.mapValues f = m := by
  apply eq_of_entries
  show m.entries.map (fun e => (e.1, f e.2)) = m.entries
  rw [List.map_congr_left fun e he => by rw [h e he], List.map_id']

end SortedMap

namespace Tally

variable {κ : Type} [Ord κ]

/-- The tally with all counts modulo `2 ^ 64`. A key whose count comes round to zero stays
listed. -/
def wrap (t : Tally κ) : Tally κ := t.mapValues (· % 2 ^ 64)

/-- Words hold the counts of a tally that are below `2 ^ 64`. -/
theorem wrap_eq_self {t : Tally κ} (h : ∀ e ∈ t.entries, e.2 < 2 ^ 64) : t.wrap = t :=
  SortedMap.mapValues_eq_self fun e he => Nat.mod_eq_of_lt (h e he)

/-- In words each count is found modulo `2 ^ 64`. -/
theorem get?_wrap (t : Tally κ) (key : κ) : t.wrap.get? key = (t.get? key).map (· % 2 ^ 64) :=
  Assoc.get?_mapValues (fun n => n % 2 ^ 64) t.entries

variable [Std.TransOrd κ] [Std.LawfulEqOrd κ] [DecidableEq κ]

/-- Adds a word to the count of a key, in words. -/
def addWord (t : Tally κ) (key : κ) (n : Nat) : Tally κ := (t.add key (n % 2 ^ 64)).wrap

/-- An addition in words is the exact one, modulo `2 ^ 64`. -/
theorem addWord_wrap (t : Tally κ) (key : κ) (n : Nat) :
    t.wrap.addWord key n = (t.add key n).wrap := by
  apply SortedMap.eq_of_get?
  intro other
  rw [addWord, get?_wrap, get?_wrap, get?_add, get?_add, get?_wrap, get?_wrap]
  -- The key that is added to has a sum of remainders, and any other a remainder of a remainder.
  split
  next => cases t.get? key <;> simp
  next => cases t.get? other <;> simp

/-- So a tally can be made in words or brought into words at the end. -/
theorem foldl_addWord (counts : List (κ × Nat)) :
    counts.foldl (fun t e => t.addWord e.1 e.2) .empty = (ofCounts counts).wrap := by
  induction counts using List.reverseRecOn with
  | nil => rfl
  | append_singleton front e ih =>
    rw [ofCounts, List.foldl_concat, List.foldl_concat, ih, addWord_wrap]
    rfl

end Tally

end NaturalNames
