import NaturalNames.Text.Class

/-!
# `NaturalNames.Proofs.Text.Class`: white space, letters and numbers have nothing in common

The classes of characters are tables, and that two of them do not overlap is a fact about every pair
of intervals. `Ranges.Disjoint` says so in a form that can be computed. ASCII has no place in the
tables of letters and numbers, so the few intervals of it are put in front of them here.
-/

set_option autoImplicit false

namespace NaturalNames.Text

/-- The two tables have no code point in common. -/
def Ranges.Disjoint (a b : Ranges) : Prop :=
  ∀ r ∈ a, ∀ q ∈ b, r.2 < q.1 ∨ q.2 < r.1

instance (a b : Ranges) : Decidable (a.Disjoint b) :=
  inferInstanceAs (Decidable (∀ r ∈ a, ∀ q ∈ b, r.2 < q.1 ∨ q.2 < r.1))

/-- A character of one of two disjoint classes is not of the other. -/
theorem Ranges.Disjoint.not_hold {a b : Ranges} (h : a.Disjoint b) {c : Char}
    (ha : a.hold c = true) : ¬ b.hold c = true := by
  intro hb
  obtain ⟨r, hr, hcr⟩ := hold_iff.1 ha
  obtain ⟨q, hq, hcq⟩ := hold_iff.1 hb
  have := h r hr q hq
  omega

/-! ### The classes as tables -/

/-- The letters of ASCII and those behind it. -/
def letterRanges : Ranges := (0x41, 0x5a) :: (0x61, 0x7a) :: alphabeticRanges

/-- The digits of ASCII. -/
def digitRanges : Ranges := [(0x30, 0x39)]

/-- The digits of ASCII and the numbers behind it. -/
def numberRanges : Ranges := digitRanges ++ numericRanges

variable {c : Char}

/-- The range of the digits holds exactly the digits. -/
theorem hold_digitRanges_iff : digitRanges.hold c = true ↔ c.isDigit = true := by
  simp only [Ranges.hold_iff, digitRanges, List.mem_singleton, exists_eq_left,
    Char.isDigit_iff_toNat]
  rfl

/-- The letters of ASCII are two intervals. -/
theorem isAlpha_iff_toNat : c.isAlpha = true ↔
    0x41 ≤ c.toNat ∧ c.toNat ≤ 0x5a ∨ 0x61 ≤ c.toNat ∧ c.toNat ≤ 0x7a := by
  show (decide (c.val ≥ 'A'.val ∧ c.val ≤ 'Z'.val) ||
    (decide (c.val ≥ 'a'.val) && decide (c.val ≤ 'z'.val))) = true ↔ _
  rw [Bool.or_eq_true, Bool.and_eq_true, decide_eq_true_iff, decide_eq_true_iff,
    decide_eq_true_iff]
  rfl

/-- Letters are in the ranges of the letters. -/
theorem hold_letterRanges (h : isAlphabetic c = true) : letterRanges.hold c = true := by
  rw [isAlphabetic] at h
  rw [Ranges.hold_iff]
  split at h
  · obtain h | h := isAlpha_iff_toNat.1 h
    · exact ⟨(0x41, 0x5a), by simp [letterRanges], h⟩
    · exact ⟨(0x61, 0x7a), by simp [letterRanges], h⟩
  · obtain ⟨r, hr, hc⟩ := Ranges.hold_iff.1 h
    exact ⟨r, by simp [letterRanges, hr], hc⟩

/-- Numbers are in the ranges of the numbers. -/
theorem hold_numberRanges (h : isNumeric c = true) : numberRanges.hold c = true := by
  rw [isNumeric] at h
  rw [numberRanges, Ranges.hold, List.any_append, Bool.or_eq_true]
  split at h
  · exact .inl (hold_digitRanges_iff.2 h)
  · exact .inr h

/-- The letters and digits of ASCII are letters and numbers. -/
theorem isAlphanumeric_of_isAlphanum (h : c.isAlphanum = true) : isAlphanumeric c = true := by
  have hascii : c.toNat < 128 := by
    have hnine : '9'.toNat = 0x39 := rfl
    rw [Char.isAlphanum, Bool.or_eq_true, isAlpha_iff_toNat, Char.isDigit_iff_toNat] at h
    omega
  rw [isAlphanumeric, isAlphabetic, isNumeric, if_pos hascii, if_pos hascii]
  exact h

/-! ### Classes that do not overlap -/

/-- White space is no letter. -/
theorem isAlphabetic_of_isBlank (h : isBlank c = true) : isAlphabetic c = false := by
  have hdisjoint : Ranges.Disjoint blankRanges letterRanges := by decide +kernel
  exact Bool.eq_false_iff.2 fun hc => hdisjoint.not_hold h (hold_letterRanges hc)

/-- White space is no number. -/
theorem isNumeric_of_isBlank (h : isBlank c = true) : isNumeric c = false := by
  have hdisjoint : Ranges.Disjoint blankRanges numberRanges := by decide +kernel
  exact Bool.eq_false_iff.2 fun hc => hdisjoint.not_hold h (hold_numberRanges hc)

/-- White space is neither letter nor number. -/
theorem isAlphanumeric_of_isBlank (h : isBlank c = true) : isAlphanumeric c = false := by
  rw [isAlphanumeric, isAlphabetic_of_isBlank h, isNumeric_of_isBlank h, Bool.or_false]

/-- A digit is no white space. -/
theorem isBlank_of_isDigit (h : c.isDigit = true) : isBlank c = false := by
  have hdisjoint : Ranges.Disjoint digitRanges blankRanges := by decide
  exact Bool.eq_false_iff.2 (hdisjoint.not_hold (hold_digitRanges_iff.2 h))

/-- A letter is no digit. -/
theorem isDigit_of_isAlphabetic (h : isAlphabetic c = true) : c.isDigit = false := by
  have hdisjoint : Ranges.Disjoint letterRanges digitRanges := by decide +kernel
  exact Bool.eq_false_iff.2 fun hc =>
    hdisjoint.not_hold (hold_letterRanges h) (hold_digitRanges_iff.2 hc)

end NaturalNames.Text
