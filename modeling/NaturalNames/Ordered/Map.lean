import NaturalNames.Ordered.Assoc

/-!
# `NaturalNames.Ordered.Map`: finite maps listed in key order

Counts are kept by name, by category, by n-gram. Every walk over such a map goes through its
keys in ascending order, so a sum of rounded numbers has one value and a list of names one order.
-/

set_option autoImplicit false

namespace NaturalNames

/-- A finite map from `κ` to `ν`. -/
structure SortedMap (κ ν : Type) [Ord κ] where
  /-- The entries, keys ascending. -/
  entries : List (κ × ν)
  ascending : Assoc.Ascending entries

namespace SortedMap

variable {κ ν : Type} [Ord κ]

/-- A map is determined by its entries. -/
theorem eq_of_entries : {a b : SortedMap κ ν} → a.entries = b.entries → a = b
  | ⟨_, _⟩, ⟨_, _⟩, rfl => rfl

instance [DecidableEq κ] [DecidableEq ν] : DecidableEq (SortedMap κ ν) := fun a b =>
  if h : a.entries = b.entries then isTrue (eq_of_entries h)
  else isFalse fun e => h (e ▸ rfl)

/-- The map without entries. -/
def empty : SortedMap κ ν := ⟨[], .nil⟩

instance : Inhabited (SortedMap κ ν) := ⟨empty⟩

/-- The value of a key. -/
def get? (m : SortedMap κ ν) (k : κ) : Option ν := Assoc.get? k m.entries

/-- The keys, ascending. -/
def keys (m : SortedMap κ ν) : List κ := m.entries.map Prod.fst

/-- The values, in the order of their keys. -/
def values (m : SortedMap κ ν) : List ν := m.entries.map Prod.snd

/-- Whether the map has no entry. -/
def isEmpty (m : SortedMap κ ν) : Bool := m.entries.isEmpty

/-- The entries that satisfy `p`. -/
def filter (p : κ → ν → Bool) (m : SortedMap κ ν) : SortedMap κ ν :=
  ⟨m.entries.filter fun e => p e.1 e.2, List.Pairwise.filter _ m.ascending⟩

variable [Std.TransOrd κ]

/-- Gives `k` the value `f old`, where `old` is its value so far. -/
def alter (m : SortedMap κ ν) (k : κ) (f : Option ν → ν) : SortedMap κ ν :=
  ⟨Assoc.alter k f m.entries, m.ascending.alter⟩

/-- Gives `k` the value `v`, in place of any it had. -/
def insert (m : SortedMap κ ν) (k : κ) (v : ν) : SortedMap κ ν :=
  m.alter k fun _ => v

/-- The map of a list of entries. Of two entries with one key the later counts. -/
def ofList (entries : List (κ × ν)) : SortedMap κ ν :=
  entries.foldl (fun m e => m.insert e.1 e.2) empty

/-! ### Look-ups say all about a map -/

/-- Changing the entry of a key changes what is found under it and under no other key. -/
theorem get?_alter [Std.LawfulEqOrd κ] [DecidableEq κ] (m : SortedMap κ ν) (k k' : κ)
    (f : Option ν → ν) :
    (m.alter k f).get? k' = if k' = k then some (f (m.get? k)) else m.get? k' :=
  Assoc.get?_alter m.ascending

/-- Maps in which the same is found are the same. -/
theorem eq_of_get? [Std.LawfulEqOrd κ] {a b : SortedMap κ ν} (h : ∀ k, a.get? k = b.get? k) :
    a = b :=
  eq_of_entries (Assoc.eq_of_get? a.ascending b.ascending h)

end SortedMap

/-! ### Counts -/

/-- A multiset: how often each key was counted. A key may be listed with count zero. -/
abbrev Tally (κ : Type) [Ord κ] := SortedMap κ Nat

namespace Tally

variable {κ : Type} [Ord κ]

/-- The count of a key, zero if the key is not listed. -/
def count (t : Tally κ) (k : κ) : Nat := (t.get? k).getD 0

/-- The sum of all counts. -/
def total (t : Tally κ) : Nat := t.values.foldr (· + ·) 0

variable [Std.TransOrd κ]

/-- Counts `k` another `n` times. -/
def add (t : Tally κ) (k : κ) (n : Nat) : Tally κ :=
  t.alter k fun old => old.getD 0 + n

/-- Counting a key adds to its count and to no other. -/
theorem count_add [Std.LawfulEqOrd κ] [DecidableEq κ] (t : Tally κ) (k k' : κ) (n : Nat) :
    (t.add k n).count k' = if k' = k then t.count k + n else t.count k' := by
  simp only [count, add, SortedMap.get?_alter]
  split <;> simp

/-- Adds the counts of `b` to those of `a`, key by key. -/
def merge (a b : Tally κ) : Tally κ :=
  b.entries.foldl (fun t e => add t e.1 e.2) a

/-- The tally of a list of keys with the counts to add. -/
def ofCounts (counts : List (κ × Nat)) : Tally κ :=
  counts.foldl (fun t e => add t e.1 e.2) SortedMap.empty

/-- How often each key stands in a list. -/
def ofKeys (keys : List κ) : Tally κ :=
  keys.foldl (fun t k => add t k 1) SortedMap.empty

end Tally

end NaturalNames
