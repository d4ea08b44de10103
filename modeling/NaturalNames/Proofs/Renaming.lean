import NaturalNames.Renaming

/-!
# `NaturalNames.Proofs.Renaming`: the order of a ranking

Renamings are ordered by score and then by name. Two that are equal in this order have one name,
so a ranking of different names loses none of them.
-/

set_option autoImplicit false

namespace NaturalNames.Renaming

variable {α : Type} [Arithmetic α] {a b : Renaming α}

/-- Renamings are ordered by score and then by name. -/
theorem compare_eq_then :
    compare a b = (Arithmetic.order a.score b.score).then (compare a.name b.name) := rfl

/-- A renaming stands in front of another with a lesser score, or with an equal one and a lesser
name. -/
theorem compare_eq_lt_iff :
    compare a b = .lt ↔ Arithmetic.order a.score b.score = .lt ∨
      Arithmetic.order a.score b.score = .eq ∧ a.name < b.name := by
  rw [compare_eq_then, Ordering.then_eq_lt]
  exact or_congr_right (and_congr_right fun _ => compareOfLessAndEq_eq_lt)

/-- Renamings that tie have one name. -/
theorem name_eq_of_compare_eq (h : compare a b = .eq) : a.name = b.name := by
  rw [compare_eq_then, Ordering.then_eq_eq] at h
  exact Std.LawfulEqCmp.eq_of_compare h.2

end NaturalNames.Renaming
