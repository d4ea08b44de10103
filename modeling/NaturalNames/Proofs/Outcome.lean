/-!
# `NaturalNames.Proofs.Outcome`: what steps that can fail leave behind

Whoever builds, reads or trains something goes through steps each of which can fail. The steps in
a row give a result if each of them does, and fail with the first error that one of them gives.
These are the lemmas to take such a row apart with.
-/

set_option autoImplicit false

namespace NaturalNames

variable {ε β γ : Type} {x : Except ε β}

/-- Two steps succeed if the first one does and the second one does with its result. -/
theorem except_bind_eq_ok_iff {f : β → Except ε γ} {c : γ} :
    x >>= f = .ok c ↔ ∃ b, x = .ok b ∧ f b = .ok c := by
  cases x <;> simp [bind, Except.bind]

/-- Two steps fail if the first one does, or else the second one with its result. -/
theorem except_bind_eq_error_iff {f : β → Except ε γ} {e : ε} :
    x >>= f = .error e ↔ x = .error e ∨ ∃ b, x = .ok b ∧ f b = .error e := by
  cases x <;> simp [bind, Except.bind]

/-- What is made of a result is there if the result is. -/
theorem except_map_eq_ok_iff {f : β → γ} {c : γ} :
    x.map f = .ok c ↔ ∃ b, x = .ok b ∧ f b = c := by
  cases x <;> simp [Except.map]

/-- A result that is changed fails as the result does. -/
theorem except_map_eq_error_iff {f : β → γ} {e : ε} : x.map f = .error e ↔ x = .error e := by
  cases x <;> simp [Except.map]

end NaturalNames
