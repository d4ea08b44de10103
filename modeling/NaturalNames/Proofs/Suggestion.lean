import NaturalNames.Proofs.Ordered.Sort
import NaturalNames.Suggestion

/-!
# `NaturalNames.Proofs.Suggestion`: the order of suggestions

Suggestions are sorted by gap, identifier and scope. The rankings in them are not looked at, so two
suggestions may compare equal without being the same. `occurrence_eq_of_order` says what they have
in common: they are about one name in one scope. Where that determines a suggestion,
`sort_eq_of_perm` makes the sorted list independent of the order the suggestions came in.
-/

set_option autoImplicit false

namespace NaturalNames

/-! ### Scopes -/

instance : Std.LawfulEqOrd NameKind where
  eq_of_compare {a b} h := by
    have hcompare : compare a.place b.place = .eq := h
    have hplace := Std.LawfulEqCmp.eq_of_compare hcompare
    cases a <;> cases b <;> first | rfl | exact absurd hplace (by decide)

instance : Std.TransOrd Scope := inferInstanceAs (Std.TransCmp (compareLex _ _))

/-- Scopes that compare equal do so in each field. -/
instance : Std.LawfulEqOrd Scope where
  eq_of_compare {a b} h := by
    obtain ⟨hsnippet, h⟩ := compareLex_eq_eq.1 h
    obtain ⟨hcategory, h⟩ := compareLex_eq_eq.1 h
    obtain ⟨hparent, h⟩ := compareLex_eq_eq.1 h
    obtain ⟨hkind, htype⟩ := compareLex_eq_eq.1 h
    cases a
    cases b
    simp_all [compareOn, Std.LawfulEqCmp.compare_eq_iff_eq]

/-! ### Suggestions -/

namespace Suggestion

variable {α : Type} [Arithmetic α]

instance : Std.TransCmp fun a b : Suggestion α => Arithmetic.order b.gap a.gap :=
  transCmp_descending gap

instance : Std.TransCmp (order : Suggestion α → Suggestion α → Ordering) :=
  inferInstanceAs (Std.TransCmp (compareLex _ _))

/-- Suggestions are ordered by gap, the greatest first, then by identifier and scope. -/
theorem order_eq_then (a b : Suggestion α) :
    order a b = (Arithmetic.order b.gap a.gap).then
      ((compare a.identifier b.identifier).then (compare a.scope b.scope)) := rfl

/-- The name that a suggestion is about, and where it stands. -/
def occurrence (s : Suggestion α) : Occurrence := ⟨s.scope, s.identifier⟩

/-- Suggestions that tie are for one occurrence. -/
theorem occurrence_eq_of_order {a b : Suggestion α} (h : order a b = .eq) :
    a.occurrence = b.occurrence := by
  rw [order_eq_then, Ordering.then_eq_eq, Ordering.then_eq_eq] at h
  rw [occurrence, occurrence, Std.LawfulEqCmp.eq_of_compare h.2.1,
    Std.LawfulEqCmp.eq_of_compare h.2.2]

/-- Sorting keeps every suggestion. -/
theorem perm_sort (suggestions : List (Suggestion α)) : (sort suggestions).Perm suggestions :=
  List.mergeSort_perm _ _

/-- Sorted suggestions have the widest gap first, and those with equal gaps are in the order of
their identifiers and scopes. -/
theorem pairwise_sort (suggestions : List (Suggestion α)) :
    (sort suggestions).Pairwise fun a b => Arithmetic.order b.gap a.gap = .lt ∨
      Arithmetic.order b.gap a.gap = .eq ∧ (a.identifier < b.identifier ∨
        a.identifier = b.identifier ∧ (compare a.scope b.scope).isLE = true) := by
  refine (pairwise_mergeSort_isLE suggestions).imp fun {a b} h => ?_
  have hlt : compare a.identifier b.identifier = .lt ↔ a.identifier < b.identifier :=
    compareOfLessAndEq_eq_lt
  have heq : compare a.identifier b.identifier = .eq ↔ a.identifier = b.identifier :=
    Std.LawfulEqCmp.compare_eq_iff_eq
  rwa [order_eq_then, Ordering.isLE_then_iff_or, Ordering.isLE_then_iff_or, hlt, heq] at h

/-- Suggestions of which each occurrence has one are sorted in one way. -/
theorem sort_eq_of_perm {suggestions suggestions' : List (Suggestion α)}
    (hperm : suggestions.Perm suggestions')
    (heq : ∀ a ∈ suggestions, ∀ b ∈ suggestions, a.occurrence = b.occurrence → a = b) :
    sort suggestions = sort suggestions' :=
  mergeSort_eq_of_perm hperm fun a ha b hb hab => heq a ha b hb (occurrence_eq_of_order hab)

/-- Suggestions may be filtered before they are sorted, if none of them tie. -/
theorem filter_sort (p : Suggestion α → Bool) {suggestions : List (Suggestion α)}
    (heq : ∀ a ∈ suggestions, ∀ b ∈ suggestions, a.occurrence = b.occurrence → a = b) :
    (sort suggestions).filter p = sort (suggestions.filter p) :=
  filter_mergeSort p fun a ha b hb hab => heq a ha b hb (occurrence_eq_of_order hab)

end Suggestion

end NaturalNames
