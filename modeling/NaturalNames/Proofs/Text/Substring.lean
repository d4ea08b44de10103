import Mathlib.Data.List.Basic
import NaturalNames.Text.Substring

/-!
# `NaturalNames.Proofs.Text.Substring`: cutting and replacing say the same

Replacing passes over a text once and counts down the characters of an occurrence; cutting finds
one occurrence. What is to be said about replacing is easier to say of cuts:

* `splitFirst_eq_some_iff`: a cut is made at an occurrence before which there is none.
* `replaceAll_of_cut` and `replaceAll_of_uncut`: to replace is to cut, and to go on behind the
  occurrence that was found.
* `cut_induction` is the induction that goes with it.

A character that occurrences do not have divides a text, and replacing goes on in each part by
itself (`replaceAll_append_cons`).

Where there is one occurrence, what replaces it stands between the two sides of a cut
(`OccursOnce.exists_cut`), and `between` finds it there (`between_eq_some_iff`).
-/

set_option autoImplicit false

namespace NaturalNames.Text

/-! ### Cuts -/

/-- A cut is made at an occurrence, and there is none before it. -/
theorem splitFirst_eq_some_iff {pat text before behind : List Char} :
    splitFirst pat text = some (before, behind) ↔
      text = before ++ pat ++ behind ∧ ∀ k < before.length, ¬ pat <+: text.drop k := by
  induction text generalizing before with
  | nil =>
    rw [splitFirst]
    split
    next hpat =>
      subst hpat
      cases before <;> simp [eq_comm]
    next hpat => simp [hpat]
  | cons c rest ih =>
    rw [splitFirst]
    split
    next behind' hstart =>
      rw [List.isPrefixOf?_eq_some_iff_append_eq] at hstart
      constructor
      · intro h
        cases h
        simp [hstart]
      · rintro ⟨htext, hnone⟩
        -- The text starts with an occurrence, so nothing stands before the first one.
        cases before with
        | nil => simpa [htext] using hstart
        | cons b before => exact absurd ⟨behind', hstart⟩ (hnone 0 (Nat.succ_pos _))
    next hstart =>
      have hne : ¬ pat <+: c :: rest := by
        rintro ⟨behind', h⟩
        rw [List.isPrefixOf?_eq_some_iff_append_eq.2 h] at hstart
        cases hstart
      cases before with
      | nil =>
        refine ⟨fun h => ?_, fun h => absurd ⟨behind, by simpa using h.1.symm⟩ hne⟩
        obtain ⟨cut, -, hcut⟩ := Option.map_eq_some_iff.1 h
        cases hcut
      | cons b before =>
        have hrest : (splitFirst pat rest).map (fun cut => (c :: cut.1, cut.2))
            = some (b :: before, behind) ↔ c = b ∧ splitFirst pat rest = some (before, behind) := by
          cases splitFirst pat rest <;> simp [Prod.ext_iff, and_assoc]
        rw [hrest, ih]
        simp only [List.cons_append, List.cons.injEq, List.length_cons]
        constructor
        · rintro ⟨hc, htext, hnone⟩
          refine ⟨⟨hc, htext⟩, fun k hk => ?_⟩
          cases k with
          | zero => exact hne
          | succ k => exact hnone k (by omega)
        · rintro ⟨⟨hc, htext⟩, hnone⟩
          exact ⟨hc, htext, fun k hk => hnone (k + 1) (by omega)⟩

/-- A text is cut where there is an occurrence at all. -/
theorem isSome_splitFirst_iff {pat text : List Char} :
    (splitFirst pat text).isSome = true ↔ pat <:+: text := by
  induction text with
  | nil =>
    rw [splitFirst]
    split <;> simp_all
  | cons c rest ih =>
    rw [splitFirst, List.infix_cons_iff, ← ih]
    split
    -- The pattern stands here.
    next behind hstart =>
      have h : pat <+: c :: rest := ⟨behind, List.isPrefixOf?_eq_some_iff_append_eq.1 hstart⟩
      simp [h]
    -- It does not, so it stands in the text if it stands behind the first character.
    next hstart =>
      have h : ¬ pat <+: c :: rest := by
        rintro ⟨behind, h⟩
        rw [List.isPrefixOf?_eq_some_iff_append_eq.2 h] at hstart
        cases hstart
      simp [h]

/-- A text that cannot be cut at a pattern does not hold it. -/
theorem splitFirst_eq_none_iff {pat text : List Char} :
    splitFirst pat text = none ↔ ¬ pat <:+: text := by
  rw [← isSome_splitFirst_iff, Bool.not_eq_true, Option.isSome_eq_false_iff,
    Option.isNone_iff_eq_none]

/-- A text that was cut is its two parts with the pattern between them. -/
theorem eq_of_splitFirst {pat text before behind : List Char}
    (h : splitFirst pat text = some (before, behind)) : text = before ++ pat ++ behind :=
  (splitFirst_eq_some_iff.1 h).1

/-- No occurrence stands in front of the cut. -/
theorem not_infix_of_splitFirst {pat text before behind : List Char} (hpat : pat ≠ [])
    (h : splitFirst pat text = some (before, behind)) : ¬ pat <:+: before := by
  obtain ⟨-, hnone⟩ := splitFirst_eq_some_iff.1 h
  have htext := eq_of_splitFirst h
  rintro ⟨front, back, rfl⟩
  have hlength : front.length < (front ++ pat ++ back).length := by
    have hpos := List.length_pos_iff.2 hpat
    simp only [List.length_append]
    omega
  refine hnone front.length hlength ⟨back ++ pat ++ behind, ?_⟩
  simp only [htext, List.append_assoc, List.drop_left]

/-- There is an occurrence in front of which there is none. -/
theorem exists_first_infix {pat text : List Char} (hpat : pat ≠ []) (h : pat <:+: text) :
    ∃ before behind, text = before ++ pat ++ behind ∧ ¬ pat <:+: before := by
  obtain ⟨⟨before, behind⟩, hcut⟩ := Option.isSome_iff_exists.1 (isSome_splitFirst_iff.2 h)
  exact ⟨before, behind, eq_of_splitFirst hcut, not_infix_of_splitFirst hpat hcut⟩

/-- A text without an occurrence, or one that is cut at its first and has the property behind it.
What is to be shown of all texts is shown of these two kinds. -/
theorem cut_induction {pat : List Char} (hpat : pat ≠ []) {motive : List Char → Prop}
    (uncut : ∀ text, splitFirst pat text = none → motive text)
    (cut : ∀ text before behind, splitFirst pat text = some (before, behind) →
      motive behind → motive text) (text : List Char) : motive text := by
  cases hcut : splitFirst pat text with
  | none => exact uncut text hcut
  | some pieces =>
    have hshorter : pieces.2.length < text.length := by
      have hlength := congrArg List.length (eq_of_splitFirst hcut)
      have hpos := List.length_pos_iff.2 hpat
      simp only [List.length_append] at hlength
      omega
    exact cut text pieces.1 pieces.2 hcut (cut_induction hpat uncut cut pieces.2)
termination_by text.length

/-! ### Characters that an occurrence does not have -/

section

variable {pat front rest : List Char} {c : Char} (hc : c ∉ pat)

include hc

/-- What begins in front of such a character ends in front of it. -/
theorem prefix_of_prefix_append_cons (h : pat <+: front ++ c :: rest) : pat <+: front := by
  rcases List.prefix_or_prefix_of_prefix h (List.prefix_append front _) with hfront | ⟨tail, rfl⟩
  · exact hfront
  · rw [List.prefix_append_right_inj] at h
    cases tail with
    | nil => simp
    | cons d tail =>
      obtain ⟨rfl, -⟩ := List.cons_prefix_cons.1 h
      simp at hc

/-- A pattern that a text begins with, if its first character is not of the pattern, is empty. -/
theorem eq_nil_of_prefix_cons (h : pat <+: c :: rest) : pat = [] :=
  List.prefix_nil.1 (prefix_of_prefix_append_cons hc h)

/-- An occurrence stands on one side of such a character. -/
theorem infix_or_infix_of_infix_append_cons (h : pat <:+: front ++ c :: rest) :
    pat <:+: front ∨ pat <:+: rest := by
  induction front with
  | nil =>
    rcases List.infix_cons_iff.1 h with hstart | hrest
    · exact .inl (by simp [eq_nil_of_prefix_cons hc hstart])
    · exact .inr hrest
  | cons d front ih =>
    rw [List.cons_append] at h
    rcases List.infix_cons_iff.1 h with hstart | hrest
    · rw [← List.cons_append] at hstart
      exact .inl (prefix_of_prefix_append_cons hc hstart).isInfix
    · exact (ih hrest).imp_left List.infix_cons

end

/-! ### Replacing -/

/-- Characters to be passed over are dropped. -/
theorem replaceFrom_eq_drop (pat new : List Char) (pending : Nat) (text : List Char) :
    replaceFrom pat new pending text = replaceFrom pat new 0 (text.drop pending) := by
  induction pending generalizing text with
  | zero => rfl
  | succ pending ih =>
    cases text with
    | nil => rfl
    | cons c rest => exact ih rest

/-- An occurrence at the beginning is replaced as a whole. -/
theorem replaceFrom_append {pat : List Char} (hpat : pat ≠ []) (new behind : List Char) :
    replaceFrom pat new 0 (pat ++ behind) = new ++ replaceFrom pat new 0 behind := by
  cases pat with
  | nil => exact absurd rfl hpat
  | cons p pat =>
    have hstart : (p :: pat).isPrefixOf (p :: (pat ++ behind)) = true :=
      List.isPrefixOf_iff_prefix.2 (List.prefix_append (p :: pat) behind)
    rw [List.cons_append, replaceFrom, if_pos hstart, replaceFrom_eq_drop]
    simp

variable {pat : List Char} (hpat : pat ≠ []) (new : List Char) {text before behind : List Char}

include hpat

/-- A text without an occurrence stays as it is. -/
theorem replaceAll_of_uncut (h : splitFirst pat text = none) : replaceAll pat new text = text := by
  rw [replaceAll, if_neg hpat]
  rw [splitFirst_eq_none_iff] at h
  induction text with
  | nil => rfl
  | cons c rest ih =>
    rw [List.infix_cons_iff, not_or] at h
    rw [replaceFrom, if_neg (mt List.isPrefixOf_iff_prefix.1 h.1), ih h.2]

/-- The first occurrence is replaced, and then those behind it. -/
theorem replaceAll_of_cut (h : splitFirst pat text = some (before, behind)) :
    replaceAll pat new text = before ++ new ++ replaceAll pat new behind := by
  rw [replaceAll, if_neg hpat, replaceAll, if_neg hpat]
  obtain ⟨rfl, hnone⟩ := splitFirst_eq_some_iff.1 h
  clear h
  -- Along the text in front of the occurrence, at none of whose characters one starts.
  induction before with
  | nil => exact replaceFrom_append hpat new behind
  | cons c before ih =>
    have hne : ¬ pat <+: c :: (before ++ pat ++ behind) := hnone 0 (Nat.succ_pos _)
    rw [List.cons_append, List.cons_append, replaceFrom,
      if_neg (mt List.isPrefixOf_iff_prefix.1 hne),
      ih fun k hk => hnone (k + 1) (Nat.succ_lt_succ hk)]
    rfl

/-- Replacing a text by itself changes nothing. -/
theorem replaceAll_self (text : List Char) : replaceAll pat pat text = text := by
  induction text using cut_induction hpat with
  | uncut text h => exact replaceAll_of_uncut hpat pat h
  | cut text before behind h ih => rw [replaceAll_of_cut hpat pat h, ih, ← eq_of_splitFirst h]

/-- A character at which the pattern does not begin stays. -/
theorem replaceAll_cons {c : Char} {rest : List Char} (h : ¬ pat <+: c :: rest) :
    replaceAll pat new (c :: rest) = c :: replaceAll pat new rest := by
  rw [replaceAll, if_neg hpat, replaceAll, if_neg hpat, replaceFrom,
    if_neg (mt List.isPrefixOf_iff_prefix.1 h)]

/-- A pattern in front is replaced, and the search goes on behind it. -/
theorem replaceAll_append_self (behind : List Char) :
    replaceAll pat new (pat ++ behind) = new ++ replaceAll pat new behind := by
  rw [replaceAll, if_neg hpat, replaceAll, if_neg hpat, replaceFrom_append hpat]

/-- A text that is an occurrence is replaced. -/
theorem replaceAll_whole : replaceAll pat new pat = new := by
  have hnil : splitFirst pat [] = none := if_neg hpat
  have hwhole := replaceAll_append_self hpat new []
  rwa [replaceAll_of_uncut hpat new hnil, List.append_nil, List.append_nil] at hwhole

omit hpat in
/-- A character that is not of the pattern cuts the search in two. -/
private theorem replaceFrom_append_cons {front rest : List Char} {c : Char} (hpat : pat ≠ [])
    (hc : c ∉ pat) {pending : Nat} (hpending : pending ≤ front.length) :
    replaceFrom pat new pending (front ++ c :: rest)
      = replaceFrom pat new pending front ++ c :: replaceFrom pat new 0 rest := by
  -- Along the characters in front, while those of an occurrence are counted down. The count is
  -- zero when `c` is reached.
  induction front generalizing pending with
  | nil =>
    obtain rfl : pending = 0 := Nat.le_zero.1 hpending
    have hstart : ¬ pat <+: c :: rest := fun h => hpat (eq_nil_of_prefix_cons hc h)
    rw [List.nil_append, replaceFrom, replaceFrom,
      if_neg (mt List.isPrefixOf_iff_prefix.1 hstart)]
    rfl
  | cons d front ih =>
    cases pending with
    | succ pending => exact ih (Nat.le_of_succ_le_succ hpending)
    | zero =>
      have hiff : pat <+: d :: front ++ c :: rest ↔ pat <+: d :: front :=
        ⟨prefix_of_prefix_append_cons hc, fun h => h.trans (List.prefix_append _ _)⟩
      rw [List.cons_append] at hiff ⊢
      rw [replaceFrom, replaceFrom]
      simp only [List.isPrefixOf_iff_prefix, hiff]
      split
      next h =>
        have hlength := h.length_le
        rw [ih (by rw [List.length_cons] at hlength; omega), List.append_assoc]
      next => rw [ih (Nat.zero_le _), List.cons_append]

/-- What is replaced on one side of a character does not depend on the other side, if no occurrence
has that character. -/
theorem replaceAll_append_cons {c : Char} (hc : c ∉ pat) (front rest : List Char) :
    replaceAll pat new (front ++ c :: rest)
      = replaceAll pat new front ++ c :: replaceAll pat new rest := by
  rw [replaceAll, if_neg hpat, replaceAll, if_neg hpat, replaceAll, if_neg hpat]
  exact replaceFrom_append_cons new hpat hc (Nat.zero_le _)

/-- Characters come from the text or from what is put into it. -/
theorem mem_of_mem_replaceAll {c : Char} (h : c ∈ replaceAll pat new text) :
    c ∈ text ∨ c ∈ new := by
  induction text using cut_induction hpat with
  | uncut text hcut =>
    rw [replaceAll_of_uncut hpat _ hcut] at h
    exact .inl h
  | cut text before behind hcut ih =>
    rw [replaceAll_of_cut hpat _ hcut, List.mem_append, List.mem_append] at h
    rw [eq_of_splitFirst hcut, List.mem_append, List.mem_append]
    rcases h with (hbefore | hnew) | hbehind
    · exact .inl (.inl (.inl hbefore))
    · exact .inr hnew
    · exact (ih hbehind).imp_left .inr

/-- A text does not get longer where something shorter is put in. -/
theorem length_replaceAll_le (hnew : new.length ≤ pat.length) (text : List Char) :
    (replaceAll pat new text).length ≤ text.length := by
  induction text using cut_induction hpat with
  | uncut text h => exact Nat.le_of_eq (congrArg List.length (replaceAll_of_uncut hpat new h))
  | cut text before behind h ih =>
    have hlength := congrArg List.length (eq_of_splitFirst h)
    simp only [replaceAll_of_cut hpat new h, List.length_append] at hlength ⊢
    omega

/-- It gets shorter if there is an occurrence at all. -/
theorem length_replaceAll_lt (hnew : new.length < pat.length) (htext : pat <:+: text) :
    (replaceAll pat new text).length < text.length := by
  obtain ⟨⟨before, behind⟩, h⟩ := Option.isSome_iff_exists.1 (isSome_splitFirst_iff.2 htext)
  have hbehind := length_replaceAll_le hpat new (Nat.le_of_lt hnew) behind
  have hlength := congrArg List.length (eq_of_splitFirst h)
  simp only [replaceAll_of_cut hpat new h, List.length_append] at hlength ⊢
  omega

omit hpat in
/-- What replaces an occurrence is found in the result. -/
theorem infix_replaceAll (h : pat <:+: text) : new <:+: replaceAll pat new text := by
  by_cases hpat : pat = []
  · rw [replaceAll, if_pos hpat]
    exact (List.prefix_append new _).isInfix
  · obtain ⟨cut, hcut⟩ := Option.isSome_iff_exists.1 (isSome_splitFirst_iff.2 h)
    rw [replaceAll_of_cut hpat new hcut]
    exact ⟨cut.1, _, rfl⟩

/-! ### Texts -/

omit hpat

/-- A pattern occurs in a text if its characters stand there in a row. -/
theorem occurs_iff {pat text : String} : occurs pat text = true ↔ pat.toList <:+: text.toList :=
  isSome_splitFirst_iff

/-- Where a pattern occurs, its replacement does afterwards. -/
theorem occurs_replace {pat new text : String} (h : occurs pat text = true) :
    occurs new (replace pat new text) = true := by
  rw [occurs_iff] at h ⊢
  rw [replace, String.toList_ofList]
  exact infix_replaceAll new.toList h

/-- A text is between two others if the three together are the text. -/
theorem between_eq_some_iff {before behind text inner : String} :
    between before behind text = some inner ↔
      text.toList = before.toList ++ inner.toList ++ behind.toList := by
  rw [between, Option.bind_eq_some_iff]
  constructor
  · -- What is before is taken off first, then what is behind.
    rintro ⟨rest, hrest, hinner⟩
    obtain ⟨chars, hchars, rfl⟩ := Option.map_eq_some_iff.1 hinner
    rw [List.isPrefixOf?_eq_some_iff_append_eq] at hrest
    rw [List.isSuffixOf?_eq_some_iff_append_eq] at hchars
    rw [String.toList_ofList, List.append_assoc, hchars, hrest]
  · intro htext
    refine ⟨inner.toList ++ behind.toList, ?_, Option.map_eq_some_iff.2 ⟨inner.toList, ?_, ?_⟩⟩
    · rw [List.isPrefixOf?_eq_some_iff_append_eq, htext, List.append_assoc]
    · rw [List.isSuffixOf?_eq_some_iff_append_eq]
    · rw [String.ofList_toList]

/-- A search from left to right meets `pat` once. What overlaps with the first occurrence is not
met. -/
def OccursOnce (pat text : String) : Prop :=
  ∃ before behind, splitFirst pat.toList text.toList = some (before, behind) ∧
    ¬ pat.toList <:+: behind

/-- What replaces a single occurrence stands between the sides of the cut. -/
theorem OccursOnce.exists_cut {pat text : String} (hpat : pat ≠ "") (h : OccursOnce pat text) :
    ∃ before behind, cutFirst pat text = some (before, behind) ∧
      ∀ new, (replace pat new text).toList = before.toList ++ new.toList ++ behind.toList := by
  obtain ⟨before, behind, hcut, hnone⟩ := h
  have hlist : pat.toList ≠ [] := by simpa using hpat
  refine ⟨String.ofList before, String.ofList behind, ?_, fun new => ?_⟩
  · rw [cutFirst, hcut]
    rfl
  · rw [replace, String.toList_ofList, String.toList_ofList, String.toList_ofList,
      replaceAll_of_cut hlist _ hcut, replaceAll_of_uncut hlist _ (splitFirst_eq_none_iff.2 hnone)]

end NaturalNames.Text
