import Mathlib.Data.List.Basic
import NaturalNames.Ordered.Set

/-!
# `NaturalNames.Proofs.Ordered.Set`: what a set made from a list holds

A set drops an element that compares equal to one it has. So there are two kinds of statements:

* `perm_ofList`: where no two elements of a list compare equal nothing is dropped, and the set is
  the list in another order. This is how rankings are made: names differ, so renamings do.
* `mem_insert_iff` and `mem_ofList_iff`: where only identical elements compare equal, a set holds
  what was put in.

Where the elements of two lists correspond and compare alike, so do the elements of their sets
(`forall₂_ofList`).
-/

set_option autoImplicit false

namespace NaturalNames.SortedSet

variable {α : Type} [Ord α]

/-- A place is found for an element that is equal to none. -/
theorem perm_insertList {a : α} {list : List α} (h : ∀ b ∈ list, compare a b ≠ .eq) :
    (insertList a list).Perm (a :: list) := by
  induction list with
  | nil => exact .refl _
  | cons b rest ih =>
    rw [insertList]
    split
    · exact .refl _
    · rename_i heq
      exact absurd heq (h b (by simp))
    · exact ((ih fun c hc => h c (by simp [hc])).cons b).trans (.swap a b rest)

/-- Putting in an element makes a list longer by one at most. -/
theorem length_insertList_le (a : α) (list : List α) :
    (insertList a list).length ≤ list.length + 1 := by
  induction list with
  | nil => simp [insertList]
  | cons b rest ih =>
    rw [insertList]
    split <;> simp only [List.length_cons] <;> omega

/-- After an element was put in, it is there, and so is all that was there before. -/
theorem mem_insertList_iff [Std.LawfulEqOrd α] {a c : α} {list : List α} :
    c ∈ insertList a list ↔ c = a ∨ c ∈ list := by
  induction list with
  | nil => simp [insertList]
  | cons b rest ih =>
    rw [insertList]
    split
    · simp
    · -- The element is there already, so it is the one that compares equal.
      rename_i heq
      have hab : a = b := Std.LawfulEqCmp.eq_of_compare heq
      simp [hab]
    · simp only [List.mem_cons, ih]
      exact or_left_comm

/-- An element that is greater than all others goes to the end. -/
theorem insertList_of_forall_lt [Std.OrientedOrd α] {a : α} {list : List α}
    (h : ∀ b ∈ list, compare b a = .lt) : insertList a list = list ++ [a] := by
  induction list with
  | nil => rfl
  | cons b rest ih =>
    have hgt : compare a b = .gt := Std.OrientedCmp.gt_of_lt (h b (by simp))
    rw [insertList, hgt, ih fun c hc => h c (by simp [hc])]
    rfl

variable [Std.TransOrd α]

/-! ### Insertion -/

/-- After an element was put in, it is in the set, and so is all that was there before. -/
theorem mem_insert_iff [Std.LawfulEqOrd α] {s : SortedSet α} {a c : α} :
    c ∈ (s.insert a).toList ↔ c = a ∨ c ∈ s.toList :=
  mem_insertList_iff

/-- An element above all others goes to the end. -/
theorem toList_insert_of_forall_lt {s : SortedSet α} {a : α}
    (h : ∀ b ∈ s.toList, compare b a = .lt) : (s.insert a).toList = s.toList ++ [a] :=
  insertList_of_forall_lt h

/-- Putting in an element makes a set larger by one at most. -/
theorem length_insert_le (s : SortedSet α) (a : α) :
    (s.insert a).toList.length ≤ s.toList.length + 1 :=
  length_insertList_le a s.toList

/-- No element is listed twice. -/
theorem nodup_toList (s : SortedSet α) : s.toList.Nodup :=
  s.ascending.imp fun {a b} hlt heq => by
    rw [heq, Std.ReflOrd.compare_self] at hlt
    cases hlt

/-! ### Sets from lists -/

/-- Elements of which no two are equal are all kept. -/
private theorem perm_foldl_insert {list : List α} {s : SortedSet α}
    (h : (s.toList ++ list).Pairwise fun a b => compare b a ≠ .eq) :
    (list.foldl insert s).toList.Perm (s.toList ++ list) := by
  induction list generalizing s with
  | nil => simp
  | cons a rest ih =>
    -- Putting `a` in is moving it to the elements that are in.
    have hnew : ∀ b ∈ s.toList, compare a b ≠ .eq := fun b hb =>
      (List.pairwise_append.1 h).2.2 b hb a (by simp)
    have hinsert : (s.insert a).toList.Perm (a :: s.toList) := perm_insertList hnew
    have hmove : (s.toList ++ a :: rest).Perm ((s.insert a).toList ++ rest) :=
      List.perm_middle.trans (hinsert.symm.append_right rest)
    rw [List.foldl_cons]
    refine (ih (h.perm hmove fun {b c} hne heq => hne ?_)).trans hmove.symm
    exact Std.OrientedCmp.eq_symm heq

/-- Elements of which no two compare equal are all kept. -/
theorem perm_ofList {list : List α} (h : list.Pairwise fun a b => compare a b ≠ .eq) :
    (ofList list).toList.Perm list := by
  refine perm_foldl_insert (s := empty) ?_
  exact h.imp fun {a b} hne heq => hne (Std.OrientedCmp.eq_symm heq)

/-- A set has what it had before and what was put in. -/
private theorem mem_foldl_insert_iff [Std.LawfulEqOrd α] {list : List α} {s : SortedSet α} {a : α} :
    a ∈ (list.foldl insert s).toList ↔ a ∈ s.toList ∨ a ∈ list := by
  induction list generalizing s with
  | nil => simp
  | cons b rest ih =>
    rw [List.foldl_cons, ih, mem_insert_iff, List.mem_cons]
    tauto

/-- A set from a list has the elements of the list. -/
theorem mem_ofList_iff [Std.LawfulEqOrd α] {list : List α} {a : α} :
    a ∈ (ofList list).toList ↔ a ∈ list := by
  rw [ofList, mem_foldl_insert_iff]
  simp [empty]

/-- A set grows by one at most for each element that is put in. -/
private theorem length_foldl_insert_le (list : List α) (s : SortedSet α) :
    (list.foldl insert s).toList.length ≤ s.toList.length + list.length := by
  induction list generalizing s with
  | nil => simp
  | cons a rest ih =>
    have hinsert := length_insert_le s a
    have hrest := ih (s.insert a)
    rw [List.foldl_cons, List.length_cons]
    omega

/-- A set has no more elements than the list that it is made from. -/
theorem length_ofList_le (list : List α) : (ofList list).toList.length ≤ list.length := by
  simpa [ofList, empty] using length_foldl_insert_le list empty

/-! ### Sets of corresponding elements -/

section

variable {β : Type} [Ord β] {R : α → β → Prop}

omit [Std.TransOrd α] in
/-- Elements that compare as those they correspond to are put at the same place. -/
theorem forall₂_insertList
    (hcompare : ∀ a a' b b', R a a' → R b b' → compare a b = compare a' b') {a : α} {a' : β}
    (ha : R a a') {list : List α} {list' : List β} (h : List.Forall₂ R list list') :
    List.Forall₂ R (insertList a list) (insertList a' list') := by
  induction h with
  | nil => exact .cons ha .nil
  | cons hb hrest ih =>
    rename_i b b' rest rest'
    rw [insertList, insertList, ← hcompare a a' b b' ha hb]
    cases compare a b with
    | lt => exact .cons ha (.cons hb hrest)
    | eq => exact .cons hb hrest
    | gt => exact .cons hb ih

variable [Std.TransOrd β]

/-- Lists that are related one by one are so as sets, if related elements compare alike. -/
private theorem forall₂_foldl_insert
    (hcompare : ∀ a a' b b', R a a' → R b b' → compare a b = compare a' b') {list : List α}
    {list' : List β} (h : List.Forall₂ R list list') {s : SortedSet α} {t : SortedSet β}
    (hst : List.Forall₂ R s.toList t.toList) :
    List.Forall₂ R (list.foldl insert s).toList (list'.foldl insert t).toList := by
  induction h generalizing s t with
  | nil => exact hst
  | cons ha hrest ih => exact ih (forall₂_insertList hcompare ha hst)

/-- Lists of corresponding elements make sets in which they correspond in the same order. -/
theorem forall₂_ofList
    (hcompare : ∀ a a' b b', R a a' → R b b' → compare a b = compare a' b') {list : List α}
    {list' : List β} (h : List.Forall₂ R list list') :
    List.Forall₂ R (ofList list).toList (ofList list').toList :=
  forall₂_foldl_insert hcompare h .nil

end

end NaturalNames.SortedSet
