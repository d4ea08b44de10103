import NaturalNames.Proofs.Renamer.Masking

/-!
# `NaturalNames.Proofs.Renamer.Unmasking`: a name taken out of a masked token

To look for other names, an occurrence of a name is made into a template: the wildcard takes the
place of the name, wherever the token has it. `NGram.fill?` takes names out of tokens again, but it
knows of one place only. It cuts the template at the first wildcard, and what is behind that has to
stand in the token as it is. So the two are inverse as long as the template has one wildcard:

* `fill?_maskToken_iff`: the masked name is found in its own token if it was in one place of it
  (`MaskedOnce`). That place must not be behind the stem of a wildcard, which would be taken for the
  first characters of a wildcard itself.
* `fill?_inverse_iff`: names are found exactly where they can be put, for the templates with one
  wildcard and for no others.
* `fill?_maskToken_eq_none`: a name in two places leaves a template that no token of a program
  matches, since the token would have to hold a wildcard.
-/

set_option autoImplicit false

namespace NaturalNames.NGram

variable {name token : String}

/-! ### Where a masked token is cut -/

/-- Behind the stem a wildcard is found too early: the stem and its first character make one. -/
theorem splitFirst_wildcard_of_stem {front : List Char}
    (h : ¬ wildcard.toList <:+: front ++ wildcardStem.toList) (behind : List Char) :
    Text.splitFirst wildcard.toList (front ++ wildcardStem.toList ++ wildcard.toList ++ behind)
      = some (front, ['W', 'C', '%'] ++ behind) := by
  have hfront : ¬ wildcard.toList <:+: front := fun hstands =>
    h (hstands.trans (List.prefix_append front _).isInfix)
  have hstem : ¬ wildcardStem.toList <:+ front := by
    rintro ⟨rest, rfl⟩
    refine h ⟨rest, ['W', 'C'], ?_⟩
    rw [toList_wildcard, toList_wildcardStem]
    simp
  rw [← splitFirst_wildcard hfront hstem]
  congr 1
  rw [toList_wildcard, toList_wildcardStem]
  simp

/-- The name stands in one place of the token as it is masked, and not behind the stem of a
wildcard. -/
def MaskedOnce (name token : String) : Prop :=
  ∃ before behind, Text.splitFirst name.toList token.toList = some (before, behind) ∧
    ¬ name.toList <:+: behind ∧ ¬ wildcardStem.toList <:+ before

/-- Where the first occurrence of the name is cut out, it is the only one if there is none behind
it. -/
theorem maskedOnce_iff {before behind : List Char}
    (hcut : Text.splitFirst name.toList token.toList = some (before, behind)) :
    MaskedOnce name token ↔ ¬ name.toList <:+: behind ∧ ¬ wildcardStem.toList <:+ before := by
  refine ⟨?_, fun h => ⟨before, behind, hcut, h⟩⟩
  rintro ⟨before', behind', hcut', h⟩
  rw [hcut] at hcut'
  cases hcut'
  exact h

/-- A masked token is cut where the name stood first, unless that was behind the stem of a
wildcard. -/
theorem splitFirst_maskToken (hname : name ≠ "") (htoken : Text.occurs wildcard token = false)
    (h : isOccurrence name token = true) {before behind : List Char}
    (hcut : Text.splitFirst name.toList token.toList = some (before, behind)) :
    let masked := Text.replaceAll name.toList wildcard.toList behind
    ¬ wildcardStem.toList <:+ before ∧
        Text.splitFirst wildcard.toList (maskToken name token).toList = some (before, masked) ∨
      ∃ front, before = front ++ wildcardStem.toList ∧
        Text.splitFirst wildcard.toList (maskToken name token).toList
          = some (front, ['W', 'C', '%'] ++ masked) := by
  intro masked
  have hlist : name.toList ≠ [] := by simpa using hname
  rw [← Bool.not_eq_true, Text.occurs_iff] at htoken
  -- The token has no wildcard of its own, and neither has its front.
  have hbefore : ¬ wildcard.toList <:+: before := by
    intro hstands
    rw [Text.eq_of_splitFirst hcut, List.append_assoc] at htoken
    exact htoken (hstands.trans (List.prefix_append before _).isInfix)
  have hmasked : (maskToken name token).toList = before ++ wildcard.toList ++ masked := by
    rw [maskToken, if_pos h, Text.replace, String.toList_ofList,
      Text.replaceAll_of_cut hlist _ hcut]
  rw [hmasked]
  -- A front that ends in the stem completes a wildcard too early, with the first `%` of the one put
  -- in.
  by_cases hstem : wildcardStem.toList <:+ before
  · obtain ⟨front, rfl⟩ := hstem
    exact .inr ⟨front, rfl, splitFirst_wildcard_of_stem hbefore masked⟩
  · exact .inl ⟨hstem, splitFirst_wildcard hbefore hstem masked⟩

/-! ### Names in several places -/

section

variable (hname : name ≠ "") (htoken : Text.occurs wildcard token = false)
  (h : isOccurrence name token = true)

include hname htoken h

/-- What is found with the template of a name in two places has a wildcard. -/
theorem fill?_maskToken_eq_none (hplaces : ¬ Text.OccursOnce name token) {token' : String}
    (htoken' : Text.occurs wildcard token' = false) :
    fill? (maskToken name token) token' = none := by
  obtain ⟨⟨before, behind⟩, hcut⟩ :=
    Option.isSome_iff_exists.1 (Text.isSome_splitFirst_iff.2 (infix_of_isOccurrence h))
  -- A second copy of the name leaves a wildcard behind the first one, which no filled token has.
  have hbehind : wildcard.toList <:+: Text.replaceAll name.toList wildcard.toList behind :=
    Text.infix_replaceAll _ (by_contra fun hnone => hplaces ⟨before, behind, hcut, hnone⟩)
  rw [← Bool.not_eq_true, Text.occurs_iff] at htoken'
  rw [Option.eq_none_iff_forall_ne_some]
  intro name' hfill
  -- Where the cut falls, early or not, the text behind it ends the other token.
  rcases splitFirst_maskToken hname htoken h hcut with ⟨-, hmask⟩ | ⟨front, -, hmask⟩
  · rw [fill?_eq_some_iff_of_cut hmask] at hfill
    rw [hfill.2] at htoken'
    exact htoken' (hbehind.trans (List.suffix_append _ _).isInfix)
  · rw [fill?_eq_some_iff_of_cut hmask, ← List.append_assoc] at hfill
    rw [hfill.2] at htoken'
    exact htoken' (hbehind.trans (List.suffix_append _ _).isInfix)

/-- The template of a name in one place has one wildcard. -/
theorem MaskedOnce.occursOnce (honce : MaskedOnce name token) :
    Text.OccursOnce wildcard (maskToken name token) := by
  have hlist : name.toList ≠ [] := by simpa using hname
  obtain ⟨before, behind, hcut, hbehind, hstem⟩ := honce
  rcases splitFirst_maskToken hname htoken h hcut with ⟨-, hmask⟩ | ⟨front, rfl, -⟩
  · refine ⟨before, _, hmask, fun hstands => ?_⟩
    rw [Text.replaceAll_of_uncut hlist _ (Text.splitFirst_eq_none_iff.2 hbehind)] at hstands
    rw [← Bool.not_eq_true, Text.occurs_iff, Text.eq_of_splitFirst hcut] at htoken
    exact htoken (hstands.trans (List.suffix_append _ _).isInfix)
  · exact absurd (List.suffix_append _ _) hstem

/-- Behind the stem of a wildcard the name is not found where it stood: it would have to start with
the character that the stem lacks, and the token would have a wildcard. -/
theorem fill?_maskToken_ne_of_stem {front behind : List Char}
    (hcut : Text.splitFirst name.toList token.toList
      = some (front ++ wildcardStem.toList, behind)) (hbehind : ¬ name.toList <:+: behind) :
    fill? (maskToken name token) token ≠ some name := by
  have hlist : name.toList ≠ [] := by simpa using hname
  have htext := Text.eq_of_splitFirst hcut
  intro hfill
  rcases splitFirst_maskToken hname htoken h hcut with ⟨hstem, -⟩ | ⟨front', hfront, hmask⟩
  · exact hstem (List.suffix_append _ _)
  · obtain rfl := List.append_cancel_right hfront
    rw [fill?_eq_some_iff_of_cut hmask,
      Text.replaceAll_of_uncut hlist _ (Text.splitFirst_eq_none_iff.2 hbehind)] at hfill
    rw [← Bool.not_eq_true, Text.occurs_iff] at htoken
    -- The name found would be the old one moved by the stem, so it begins with `%`.
    have hsame : wildcardStem.toList ++ name.toList = name.toList ++ ['W', 'C', '%'] := by
      have hsides := htext.symm.trans hfill.2
      simp only [← List.append_assoc, List.append_cancel_right_eq] at hsides
      simpa only [List.append_assoc, List.append_cancel_left_eq] using hsides
    cases hchars : name.toList with
    | nil => exact hlist hchars
    -- With the stem before it, that `%` is the wildcard the token was not to have.
    | cons c rest =>
      rw [hchars, toList_wildcardStem] at hsame
      obtain rfl : '%' = c := (List.cons.inj hsame).1
      refine htoken ⟨front, rest ++ behind, ?_⟩
      rw [htext, hchars, toList_wildcard]
      simp

/-- The name is taken out again where it was left open once. -/
theorem fill?_maskToken_iff :
    fill? (maskToken name token) token = some name ↔ MaskedOnce name token := by
  have hlist : name.toList ≠ [] := by simpa using hname
  obtain ⟨⟨before, behind⟩, hcut⟩ :=
    Option.isSome_iff_exists.1 (Text.isSome_splitFirst_iff.2 (infix_of_isOccurrence h))
  rw [maskedOnce_iff hcut]
  -- Three cases: a second copy, one copy after the stem, one copy alone. Only the last gives it
  -- back.
  by_cases hbehind : name.toList <:+: behind
  · have hplaces : ¬ Text.OccursOnce name token := by
      rintro ⟨before', behind', hcut', hnone⟩
      rw [hcut] at hcut'
      cases hcut'
      exact hnone hbehind
    simp [fill?_maskToken_eq_none hname htoken h hplaces htoken, hbehind]
  · rcases splitFirst_maskToken hname htoken h hcut with ⟨hstem, hmask⟩ | ⟨front, rfl, -⟩
    · rw [fill?_eq_some_iff_of_cut hmask,
        Text.replaceAll_of_uncut hlist _ (Text.splitFirst_eq_none_iff.2 hbehind)]
      exact iff_of_true ⟨hname, Text.eq_of_splitFirst hcut⟩ ⟨hbehind, hstem⟩
    · have hne := fill?_maskToken_ne_of_stem hname htoken h hcut hbehind
      exact iff_of_false hne fun hstem => hstem.2 (List.suffix_append _ _)

end

/-! ### Templates -/

/-- Names are found where they can be put if the template has one wildcard, and only then. -/
theorem fill?_inverse_iff {template : String} (hopen : isOpen template = true) :
    (∀ token name, fill? template token = some name ↔
      name ≠ "" ∧ fillToken name template = token) ↔ Text.OccursOnce wildcard template := by
  constructor
  · intro hinverse
    obtain ⟨⟨before, behind⟩, hcut⟩ := Option.isSome_iff_exists.1 hopen
    refine ⟨before, behind, hcut, fun hbehind => ?_⟩
    -- A name shorter than the wildcard, put in place of the first one alone.
    let token := String.ofList (before ++ ['a'] ++ behind)
    have hfound : fill? template token = some "a" := by
      rw [fill?_eq_some_iff_of_cut hcut]
      exact ⟨by decide, String.toList_ofList⟩
    have hput := congrArg String.toList ((hinverse token "a").1 hfound).2
    rw [toList_fillToken_of_cut hcut] at hput
    have hshorter := Text.length_replaceAll_lt (by decide) ['a'] (by decide) hbehind
    have hsame : Text.replaceAll wildcard.toList ['a'] behind = behind :=
      List.append_cancel_left (hput.trans String.toList_ofList)
    rw [hsame] at hshorter
    exact absurd hshorter (Nat.lt_irrefl _)
  · intro honce token name
    rw [fill?_eq_some_iff honce, eq_comm (a := token)]

/-! ### Masked tokens -/

/-- **A name is taken out of a masked token if it was put there once.** Take a name that is not
empty and an occurrence of it without a wildcard, and mask the occurrence. The name is found in the
token if and only if it was in one place of it, and not behind the stem of a wildcard. The template
finds exactly the names that can be put into it if and only if it has one wildcard, and one is what
a name in one place leaves. With the template of a name in several places nothing is found in any
token without a wildcard. -/
theorem taken_out_of_masked (hname : name ≠ "") (htoken : Text.occurs wildcard token = false)
    (h : isOccurrence name token = true) :
    let template := maskToken name token
    (fill? template token = some name ↔ MaskedOnce name token) ∧
    ((∀ token' name', fill? template token' = some name' ↔
      name' ≠ "" ∧ fillToken name' template = token') ↔ Text.OccursOnce wildcard template) ∧
    (MaskedOnce name token → Text.OccursOnce wildcard template) ∧
    (¬ Text.OccursOnce name token → ∀ token', Text.occurs wildcard token' = false →
      fill? template token' = none) := by
  intro template
  have hopen : isOpen template = true := by
    rw [isOpen, show template = _ from if_pos h]
    exact isOpen_replace_of_isOccurrence h
  exact ⟨fill?_maskToken_iff hname htoken h, fill?_inverse_iff hopen,
    fun honce => honce.occursOnce hname htoken h,
    fun hplaces _ htoken' => fill?_maskToken_eq_none hname htoken h hplaces htoken'⟩

/-- With `var%count%` masked, names are found in tokens like it. -/
theorem taken_out_of_masked_wrapped :
    "count" ≠ "" ∧ Text.occurs wildcard "var%count%" = false ∧
      isOccurrence "count" "var%count%" = true ∧
      maskToken "count" "var%count%" = "var%%WC%%" ∧ MaskedOnce "count" "var%count%" ∧
      fill? "var%%WC%%" "var%count%" = some "count" ∧ fill? "var%%WC%%" "var%i%" = some "i" := by
  have htoken : Text.occurs wildcard "var%count%" = false := by decide
  have hoccurrence : isOccurrence "count" "var%count%" = true := by decide
  have hmask : maskToken "count" "var%count%" = "var%%WC%%" := by decide
  have honce : MaskedOnce "count" "var%count%" :=
    ⟨['v', 'a', 'r', '%'], ['%'], by decide, by decide, by decide⟩
  obtain ⟨hself, hinverse, hwildcard, -⟩ := taken_out_of_masked (by decide) htoken hoccurrence
  rw [hmask] at hself hinverse hwildcard
  refine ⟨by decide, htoken, hoccurrence, hmask, honce, hself.2 honce, ?_⟩
  exact (hinverse.2 (hwildcard honce) "var%i%" "i").2 ⟨by decide, by decide⟩

/-- In `max%x%` the name is in two places. The token is what comes of the template with the name put
in again, but the name is not found there. -/
theorem taken_out_of_masked_twice :
    "x" ≠ "" ∧ Text.occurs wildcardStem "max%x%" = false ∧ isOccurrence "x" "max%x%" = true ∧
      fillToken "x" (maskToken "x" "max%x%") = "max%x%" ∧
      fill? (maskToken "x" "max%x%") "max%x%" = none := by
  decide

end NaturalNames.NGram
