import NaturalNames.NGram
import NaturalNames.Proofs.Text.Substring

/-!
# `NaturalNames.Proofs.NGram`: the last tokens of an n-gram, and its open ones

`suffix` keeps at least one token, so its length is the smaller of the length of the n-gram and
the number asked for, with zero counted as one. A model of order `n` looks at `suffix n` alone;
handing it that suffix in place of the n-gram changes nothing (`suffix_suffix`).

`substitute_eq_ok_iff` says when a name can be put into an n-gram, and what comes of it.

`fill?` takes a name out of a token again. It finds the one name that makes the template that token,
if the template has the wildcard once (`fill?_eq_some_iff`).
-/

set_option autoImplicit false

namespace NaturalNames.NGram

/-- An n-gram is its tokens. -/
theorem eq_of_tokens {a b : NGram} (h : a.tokens = b.tokens) : a = b := by
  cases a with
  | mk tokens nonempty =>
    cases b with
    | mk tokens' nonempty' => exact NGram.mk.injEq .. ▸ h

/-- N-grams that are equal in the order are the same. -/
instance : Std.LawfulEqOrd NGram where
  eq_of_compare {a b} h := by
    have htokens : compare a.tokens b.tokens = .eq := h
    exact eq_of_tokens (Std.LawfulEqCmp.eq_of_compare htokens)

/-! ### The last tokens -/

section

variable (ngram : NGram) (n : Nat)

/-- A suffix is as long as asked for, but not longer than the n-gram and not empty. -/
theorem length_suffix : (ngram.suffix n).length = min ngram.length (max 1 n) := by
  show (ngram.tokens.drop (ngram.tokens.length - max 1 n)).length = min ngram.tokens.length _
  rw [List.length_drop]
  omega

/-- A suffix of the same length of a suffix is the suffix. -/
theorem suffix_suffix : (ngram.suffix n).suffix n = ngram.suffix n := by
  refine eq_of_tokens ?_
  have hlength : (ngram.suffix n).tokens.length = min ngram.length (max 1 n) :=
    length_suffix ngram n
  have hdrop : (ngram.suffix n).tokens.length - max 1 n = 0 := by omega
  show (ngram.suffix n).tokens.drop ((ngram.suffix n).tokens.length - max 1 n) = _
  rw [hdrop, List.drop_zero]

end

/-! ### Names put in -/

/-- A name can be put into the n-grams with an open token. It changes these tokens alone. -/
theorem substitute_eq_ok_iff {ngram filled : NGram} {name : String} :
    ngram.substitute name = .ok filled ↔
      (∃ token ∈ ngram.tokens, isOpen token = true) ∧
        filled.tokens = ngram.tokens.map fun token =>
          if isOpen token then fillToken name token else token := by
  rw [substitute]
  split
  next h =>
    refine ⟨fun hfilled => ⟨List.any_eq_true.1 h, ?_⟩, fun hfilled => ?_⟩
    · cases hfilled
      rfl
    · exact congrArg Except.ok (eq_of_tokens hfilled.2.symm)
  next h =>
    refine ⟨fun hfilled => ?_, fun hfilled => absurd (List.any_eq_true.2 hfilled.1) h⟩
    cases hfilled

/-- A name can be put into every n-gram with an open token. -/
theorem exists_substitute_eq_ok {ngram : NGram} (h : ∃ token ∈ ngram.tokens, isOpen token = true)
    (name : String) : ∃ filled, ngram.substitute name = .ok filled := by
  rw [substitute, if_pos (List.any_eq_true.2 h)]
  exact ⟨_, rfl⟩

/-! ### Names taken out -/

/-- The wildcard is not empty. -/
theorem wildcard_ne_empty : wildcard ≠ "" := by decide

section

variable {template name : String} {before behind : List Char}
  (hcut : Text.splitFirst wildcard.toList template.toList = some (before, behind))

include hcut

/-- A name is found between the two sides of a template that is cut at its first wildcard. -/
theorem fill?_eq_some_iff_of_cut {token : String} :
    fill? template token = some name ↔
      name ≠ "" ∧ token.toList = before ++ name.toList ++ behind := by
  rw [fill?, Text.cutFirst, hcut, Option.map_some, Option.bind_some, Option.filter_eq_some_iff,
    Text.between_eq_some_iff, String.toList_ofList, String.toList_ofList, decide_eq_true_iff,
    and_comm]

/-- A name is put in place of the first wildcard, and then of those behind it. -/
theorem toList_fillToken_of_cut :
    (fillToken name template).toList
      = before ++ name.toList ++ Text.replaceAll wildcard.toList name.toList behind := by
  have hwildcard : wildcard.toList ≠ [] := by decide
  rw [fillToken, Text.replace, String.toList_ofList, Text.replaceAll_of_cut hwildcard _ hcut]

end

/-- A name is found where it was put. -/
theorem fill?_eq_some_iff {template token name : String} (h : Text.OccursOnce wildcard template) :
    fill? template token = some name ↔ name ≠ "" ∧ token = fillToken name template := by
  obtain ⟨before, behind, hcut, hfilled⟩ := h.exists_cut wildcard_ne_empty
  have hbetween : Text.between before behind token = some name ↔
      token = fillToken name template := by
    rw [Text.between_eq_some_iff, ← hfilled, String.toList_inj]
    rfl
  rw [fill?, hcut, Option.bind_some, Option.filter_eq_some_iff, hbetween, decide_eq_true_iff,
    and_comm]

/-- The wildcard stands once in the first open token, if there is one. -/
def OpenOnce (ngram : NGram) : Prop :=
  ∀ token, ngram.tokens.find? isOpen = some token → Text.OccursOnce wildcard token

/-- The bare wildcard is itself once, and a name takes its place. -/
theorem occursOnce_wildcard : Text.OccursOnce wildcard wildcard :=
  ⟨[], [], by decide, by decide⟩

/-- A token that is the wildcard and nothing else is open in one place. -/
theorem openOnce_of_bare {ngram : NGram} (h : ngram.tokens.find? isOpen = some wildcard) :
    ngram.OpenOnce := by
  intro token htoken
  obtain rfl : wildcard = token := Option.some.inj (h.symm.trans htoken)
  exact occursOnce_wildcard

/-- A name that is put into the bare wildcard is the token. -/
theorem fillToken_wildcard (name : String) : fillToken name wildcard = name := by
  have hwildcard : wildcard.toList ≠ [] := by decide
  rw [fillToken, Text.replace, Text.replaceAll_whole hwildcard, String.ofList_toList]

/-- An n-gram is open at its first token or nowhere, or the first open token is behind others. -/
theorem open_cases (ngram : NGram) :
    (∀ position, ngram.wildcardPosition? = some position → position = 0) ∨
      ∃ position token, ngram.wildcardPosition? = some position ∧ 0 < position ∧
        ngram.tokens[position]? = some token ∧ ngram.tokens.find? isOpen = some token := by
  cases hposition : ngram.wildcardPosition? with
  | none => exact .inl fun _ h => absurd h (Option.some_ne_none _).symm
  | some position =>
    rcases Nat.eq_zero_or_pos position with rfl | hpos
    · exact .inl fun _ h => (Option.some.inj h).symm
    · obtain ⟨hlt, hopen, hbefore⟩ := List.findIdx?_eq_some_iff_getElem.1 hposition
      refine .inr ⟨position, ngram.tokens[position], rfl, hpos, List.getElem?_eq_getElem hlt, ?_⟩
      refine List.find?_eq_some_iff_getElem.2 ⟨hopen, position, hlt, rfl, fun j hj => ?_⟩
      simpa using hbefore j hj

end NaturalNames.NGram
