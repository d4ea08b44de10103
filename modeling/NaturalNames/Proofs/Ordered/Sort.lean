import Mathlib.Data.List.Basic

/-!
# `NaturalNames.Proofs.Ordered.Sort`: lists sorted by a comparison

Lists are sorted by a comparison that may find different items equal. Such items stay in the order
they came in, so in general the outcome depends on that order. It does not where items that compare
equal are identical: then `mergeSort_eq_of_perm` says that a list has one sorted order.
-/

set_option autoImplicit false

namespace NaturalNames

variable {α : Type} {cmp : α → α → Ordering} [Std.TransCmp cmp]

/-- A sorted list is in order. -/
theorem pairwise_mergeSort_isLE (list : List α) :
    (list.mergeSort fun a b => (cmp a b).isLE).Pairwise fun a b => (cmp a b).isLE = true := by
  refine List.pairwise_mergeSort (fun a b c => Std.TransCmp.isLE_trans) (fun a b => ?_) list
  rw [Bool.or_eq_true]
  by_cases hab : (cmp a b).isLE = true
  · exact .inl hab
  · exact .inr (Ordering.isLE_of_eq_lt (Std.OrientedCmp.lt_of_not_isLE hab))

/-- A transitive comparison of keys is one of items, also with the greatest key first. -/
theorem transCmp_descending {β : Type} (key : β → α) :
    Std.TransCmp fun a b => cmp (key b) (key a) where
  eq_swap := Std.OrientedCmp.eq_swap
  isLE_trans hab hbc := Std.TransCmp.isLE_trans hbc hab

/-- If only identical items compare equal, the sorted list does not depend on the order in which
the items came. -/
theorem mergeSort_eq_of_perm {list list' : List α} (hperm : list.Perm list')
    (heq : ∀ a ∈ list, ∀ b ∈ list, cmp a b = .eq → a = b) :
    (list.mergeSort fun a b => (cmp a b).isLE) = list'.mergeSort fun a b => (cmp a b).isLE := by
  refine List.Perm.eq_of_pairwise (fun a b ha hb hab hba => ?_) (pairwise_mergeSort_isLE list)
    (pairwise_mergeSort_isLE list')
    ((List.mergeSort_perm _ _).trans (hperm.trans (List.mergeSort_perm _ _).symm))
  exact heq a (List.mem_mergeSort.1 ha) b (hperm.mem_iff.2 (List.mem_mergeSort.1 hb))
    (Std.OrientedCmp.isLE_antisymm hab hba)

/-- Then items can be left out before a list is sorted or after it. -/
theorem filter_mergeSort (p : α → Bool) {list : List α}
    (heq : ∀ a ∈ list, ∀ b ∈ list, cmp a b = .eq → a = b) :
    (list.mergeSort fun a b => (cmp a b).isLE).filter p
      = (list.filter p).mergeSort fun a b => (cmp a b).isLE := by
  refine List.Perm.eq_of_pairwise (fun a b ha hb hab hba => ?_)
    ((pairwise_mergeSort_isLE list).filter p) (pairwise_mergeSort_isLE _)
    (((List.mergeSort_perm _ _).filter p).trans (List.mergeSort_perm _ _).symm)
  exact heq a (List.mem_mergeSort.1 (List.mem_of_mem_filter ha)) b
    (List.mem_of_mem_filter (List.mem_mergeSort.1 hb)) (Std.OrientedCmp.isLE_antisymm hab hba)

end NaturalNames
