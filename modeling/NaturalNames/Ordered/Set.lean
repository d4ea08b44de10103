/-!
# `NaturalNames.Ordered.Set`: finite sets listed in order

A set holds one element of each class of elements that compare equal. Where equal means less
than identical (two renamings are equal when score and name are), the element that came first
stays.
-/

set_option autoImplicit false

namespace NaturalNames

/-- A finite set, listed in ascending order. -/
structure SortedSet (α : Type) [Ord α] where
  toList : List α
  ascending : toList.Pairwise fun a b => compare a b = .lt

namespace SortedSet

variable {α : Type} [Ord α]

/-- A set is determined by its list. -/
theorem eq_of_toList : {a b : SortedSet α} → a.toList = b.toList → a = b
  | ⟨_, _⟩, ⟨_, _⟩, rfl => rfl

instance [DecidableEq α] : DecidableEq (SortedSet α) := fun a b =>
  if h : a.toList = b.toList then isTrue (eq_of_toList h)
  else isFalse fun e => h (e ▸ rfl)

/-- The set without elements. -/
def empty : SortedSet α := ⟨[], .nil⟩

instance : Inhabited (SortedSet α) := ⟨empty⟩

/-- Whether the set has no element. -/
def isEmpty (s : SortedSet α) : Bool := s.toList.isEmpty

/-- The least element. -/
def first? (s : SortedSet α) : Option α := s.toList.head?

/-- The elements that satisfy `p`. -/
def filter (p : α → Bool) (s : SortedSet α) : SortedSet α :=
  ⟨s.toList.filter p, s.ascending.filter p⟩

/-- The elements before the first one that fails `p`. -/
def takeWhile (p : α → Bool) (s : SortedSet α) : SortedSet α :=
  ⟨s.toList.takeWhile p, s.ascending.sublist (List.takeWhile_sublist p)⟩

/-- The first `n` elements. -/
def take (n : Nat) (s : SortedSet α) : SortedSet α :=
  ⟨s.toList.take n, s.ascending.sublist (List.take_sublist n _)⟩

/-- Whether an element equal to `a` is there. -/
def contains (s : SortedSet α) (a : α) : Bool :=
  s.toList.any fun b => (compare a b).isEq

/-! ### Insertion -/

/-- Puts `a` at its place in an ascending list, unless an equal element is there. -/
def insertList (a : α) : List α → List α
  | [] => [a]
  | b :: rest =>
    match compare a b with
    | .lt => a :: b :: rest
    | .eq => b :: rest
    | .gt => b :: insertList a rest

/-- Nothing but the new element comes into a list. -/
theorem eq_or_mem_of_mem_insertList {a c : α} {list : List α} (h : c ∈ insertList a list) :
    c = a ∨ c ∈ list := by
  induction list with
  | nil => simpa [insertList] using h
  | cons b rest ih =>
    rw [insertList] at h
    split at h
    · simpa using h
    · exact .inr h
    · rcases List.mem_cons.1 h with rfl | h
      · exact .inr (by simp)
      · exact (ih h).imp_right (List.mem_cons_of_mem _)

variable [Std.TransOrd α]

/-- A list in order stays so when an element is put in. -/
theorem pairwise_insertList {a : α} {list : List α}
    (h : list.Pairwise fun a b => compare a b = .lt) :
    (insertList a list).Pairwise fun a b => compare a b = .lt := by
  induction list with
  | nil => simp [insertList]
  | cons b rest ih =>
    obtain ⟨hb, hrest⟩ := List.pairwise_cons.1 h
    rw [insertList]
    split
    · rename_i hlt
      refine List.pairwise_cons.2 ⟨fun c hc => ?_, h⟩
      rcases List.mem_cons.1 hc with rfl | hc
      · exact hlt
      · exact Std.TransCmp.lt_trans hlt (hb c hc)
    · exact h
    · rename_i hgt
      refine List.pairwise_cons.2 ⟨fun c hc => ?_, ih hrest⟩
      rcases eq_or_mem_of_mem_insertList hc with rfl | hc
      · exact Std.OrientedCmp.lt_of_gt hgt
      · exact hb c hc

/-- Adds `a`, unless an equal element is there. -/
def insert (s : SortedSet α) (a : α) : SortedSet α :=
  ⟨insertList a s.toList, pairwise_insertList s.ascending⟩

/-- The set of the elements of a list. Of equal elements the first stays. -/
def ofList (list : List α) : SortedSet α :=
  list.foldl insert empty

end SortedSet

end NaturalNames
