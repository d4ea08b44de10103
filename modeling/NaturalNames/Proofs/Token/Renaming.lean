import NaturalNames.Proofs.Text.Wrapped
import NaturalNames.Proofs.Token.Joining

/-!
# `NaturalNames.Proofs.Token.Renaming`: a token under another name is a token

A perturbed snippet is read again, so what comes of a token when a name in it is replaced has to
be a token, too. For a token that is the name this is what a junk name has to be: a word
(`IsPlain`). In other tokens the name stands between two `%`. No number and no operator has room
for that. A word stays a word, as the character that it starts with stays, or is a `%` in front of
the junk name. A literal stays one, and no quote in it loses or gets a backslash: the `%` in front
of the name may be protected by one, and is still there to be protected.

`Lexeme.rename` puts the cases together, and `exists_lexeme_renameToken` says it of renamed tokens.
-/

set_option autoImplicit false

namespace NaturalNames.Lexer

open NaturalNames.Text

/-- A name of letters, numbers and `_` that does not start with a number. -/
def IsPlain (name : List Char) : Prop :=
  ∃ c rest, name = c :: rest ∧ (isAlphabetic c = true ∨ c = '_') ∧
    ∀ d ∈ rest, isAlphanumeric d = true ∨ d = '_'

/-- Whether a name is plain can be tested character by character. -/
theorem isPlain_cons_iff {c : Char} {rest : List Char} : IsPlain (c :: rest) ↔
    ((isAlphabetic c || c = '_') && rest.all fun d => isAlphanumeric d || d = '_') = true := by
  rw [Bool.and_eq_true, List.all_eq_true]
  simp only [Bool.or_eq_true, decide_eq_true_eq]
  constructor
  · rintro ⟨c, rest, heq, hc, hrest⟩
    cases heq
    exact ⟨hc, hrest⟩
  · exact fun h => ⟨c, rest, rfl, h.1, h.2⟩

instance : DecidablePred IsPlain
  | [] => isFalse (by simp [IsPlain])
  | _ :: _ => decidable_of_iff _ isPlain_cons_iff.symm

/-- A name that a token can be. -/
structure IsWord (name : List Char) : Prop where
  ne_nil : name ≠ []
  word : ∀ d ∈ name, isWordChar d = true

variable {c : Char} {name junk text : List Char} {kind : TokenKind}

/-! ### Characters of names -/

/-- The first character of a word could stand inside of one, too. -/
theorem isWordChar_of_startsWord {rest : List Char} (h : startsWord c rest = true) :
    isWordChar c = true := by
  rcases startsWord_iff.1 h with hc | rfl | rfl | ⟨rfl, -⟩
  · simp [isWordChar, isAlphanumeric, hc]
  all_goals decide

/-- A token that is an identifier is a word. -/
theorem Lexeme.isWord {behind : List Char} (h : Lexeme text .identifier behind) : IsWord text := by
  generalize hkind : TokenKind.identifier = kind at h
  cases h with
  | literal | number => cases hkind
  | word hc htail _ =>
    exact ⟨List.cons_ne_nil _ _, List.forall_mem_cons.2 ⟨isWordChar_of_startsWord hc, htail⟩⟩
  | sign | pair | triple =>
    rw [operatorKind] at hkind
    split at hkind <;> cases hkind

/-- Quotes and backslashes are in no word. -/
theorem class_of_isWordChar {quote : Char} (hquote : isQuote quote = true) {d : Char}
    (h : isWordChar d = true) : d ≠ '\\' ∧ d ≠ quote := by
  refine ⟨ne_of_apply_ne isWordChar (by rw [h]; decide), ?_⟩
  rintro rfl
  have := isQuote_eq_false h (by decide)
  rw [hquote] at this
  cases this

namespace IsPlain

variable (h : IsPlain junk)

include h

/-- All characters of a plain name are letters, numbers or underscores. -/
theorem alphanumeric : ∀ d ∈ junk, isAlphanumeric d = true ∨ d = '_' := by
  obtain ⟨c, rest, rfl, hc, hrest⟩ := h
  refine List.forall_mem_cons.2 ⟨hc.imp_left fun hc => ?_, hrest⟩
  simp [isAlphanumeric, hc]

/-- A plain name is a word. -/
theorem isWord : IsWord junk := by
  refine ⟨?_, fun d hd => ?_⟩
  · obtain ⟨c, rest, rfl, -⟩ := h
    exact List.cons_ne_nil _ _
  · rcases h.alphanumeric d hd with hd | rfl
    · simp [isWordChar, hd]
    · decide

/-- A plain name has no percent sign. -/
theorem percent_notMem : '%' ∉ junk := fun hmem =>
  absurd (h.alphanumeric _ hmem) (by decide)

/-- It starts a word, alone or behind a `%`. -/
theorem startsWord_wrap (behind : List Char) : startsWord '%' (junk ++ behind) = true := by
  obtain ⟨c, hc⟩ : ∃ c, junk.head? = some c := by
    obtain ⟨c, rest, rfl, -⟩ := h
    exact ⟨c, rfl⟩
  rw [startsWord_iff]
  refine .inr (.inr (.inr ⟨rfl, c, ?_, h.alphanumeric c (List.mem_of_mem_head? hc)⟩))
  rw [List.head?_append, hc]
  rfl

/-- A plain name is a lexeme. -/
theorem lexeme : ∃ kind, Lexeme junk kind [] := by
  have hword := h.isWord.word
  obtain ⟨c, rest, rfl, hc, -⟩ := h
  have hstart : startsWord c rest = true := startsWord_iff.2 (hc.imp_right .inl)
  exact ⟨_, .word hstart (List.forall_mem_cons.1 hword).2 (by simp)⟩

end IsPlain

/-! ### Tokens with a wrapped name -/

/-- A wrapped name has the characters of the name and percent signs. -/
theorem mem_wrap_iff {d : Char} : d ∈ wrap name ↔ d ∈ name ∨ d = '%' := by
  simp [wrap]
  tauto

/-- A word stays one when it is wrapped. -/
theorem IsWord.isWord_wrap (h : IsWord name) : IsWord (wrap name) := by
  refine ⟨wrap_ne_nil name, fun d hd => ?_⟩
  rcases mem_wrap_iff.1 hd with hd | rfl
  · exact h.word d hd
  · decide

/-- In a text without `%` nothing is wrapped. -/
theorem replaceAll_wrap_of_notMem (h : '%' ∉ text) (new : List Char) :
    replaceAll (wrap name) new text = text := by
  refine replaceAll_of_uncut (wrap_ne_nil name) new (splitFirst_eq_none_iff.2 fun hstands => ?_)
  exact h (hstands.subset List.mem_cons_self)

/-- No backslash in a literal gets another character to protect. -/
theorem Closed.replaceAll_wrap {quote : Char} {body : List Char} (hquote : isQuote quote = true)
    (hjunk : IsWord junk) (h : Closed quote body) :
    Closed quote (replaceAll (wrap name) (wrap junk) body) := by
  have hne := ne_backslash_of_isQuote hquote
  have hpercent : '%' ≠ '\\' := by decide
  induction body using cut_induction (wrap_ne_nil name) with
  | uncut body hcut => rwa [replaceAll_of_uncut (wrap_ne_nil name) _ hcut]
  | cut body before behind hcut ih =>
    -- The cut is taken after each `%` and not before: a backslash may stand in front of the first
    -- one.
    have hbody : body = before ++ '%' :: (name ++ '%' :: behind) := by
      simp [eq_of_splitFirst hcut, wrap]
    rw [hbody] at h
    obtain ⟨hbefore, hrest⟩ := h.cut hne hpercent
    obtain ⟨-, hbehind⟩ := hrest.cut hne hpercent
    -- The new name holds no backslash and no quote.
    have hnew : Closed quote (junk ++ ['%']) :=
      .of_plain fun d hd => class_of_isWordChar hquote
        (hjunk.isWord_wrap.word d (List.mem_cons_of_mem _ hd))
    have hreplaced : replaceAll (wrap name) (wrap junk) body
        = (before ++ ['%']) ++ ((junk ++ ['%'])
          ++ replaceAll (wrap name) (wrap junk) behind) := by
      rw [replaceAll_of_cut (wrap_ne_nil name) _ hcut]
      simp [wrap]
    rw [hreplaced]
    exact hbefore.append hne (hnew.append hne (ih hbehind))

/-- A word starts as before, or with the `%` in front of the junk name. -/
theorem lexeme_rename_word {tail : List Char} (hc : startsWord c tail = true)
    (htail : ∀ d ∈ tail, isWordChar d = true) (hjunk : IsPlain junk) :
    ∃ kind, Lexeme (replaceAll (wrap name) (wrap junk) (c :: tail)) kind [] := by
  have hwrap := wrap_ne_nil name
  cases hcut : splitFirst (wrap name) (c :: tail) with
  | none =>
    rw [replaceAll_of_uncut hwrap _ hcut]
    exact ⟨_, .word hc htail (by simp)⟩
  | some cut =>
    obtain ⟨before, behind⟩ := cut
    have htext := eq_of_splitFirst hcut
    -- All characters put in are word characters, so the result is one word if it begins like one.
    have hword : ∀ d ∈ replaceAll (wrap name) (wrap junk) (c :: tail),
        isWordChar d = true := by
      intro d hd
      rcases mem_of_mem_replaceAll hwrap _ hd with hd | hd
      · rcases List.mem_cons.1 hd with rfl | hd
        · exact isWordChar_of_startsWord hc
        · exact htail d hd
      · exact hjunk.isWord.isWord_wrap.word d hd
    rw [replaceAll_of_cut hwrap _ hcut] at hword ⊢
    cases before with
    -- The name stood first: the word begins with the new wrapped name.
    | nil =>
      have hstart := hjunk.startsWord_wrap
        (['%'] ++ replaceAll (wrap name) (wrap junk) behind)
      rw [← List.append_assoc] at hstart
      exact ⟨_, .word hstart (List.forall_mem_cons.1 hword).2 (by simp)⟩
    | cons d before =>
      -- Else it begins as before. What follows its first character decides only if that is a `%`.
      obtain ⟨rfl, rfl⟩ := List.cons.inj htext
      refine ⟨_, .word (startsWord_of_head hc ?_) (List.forall_mem_cons.1 hword).2 (by simp)⟩
      intro d hd hdword
      cases before with
      | nil =>
        obtain rfl : '%' = d := Option.some.inj hd
        exact absurd hdword (by decide)
      | cons e before => exact hd

/-- A literal keeps its quotes, as no name has any. -/
theorem lexeme_rename_literal {quote : Char} {body : List Char} (hquote : isQuote quote = true)
    (hbody : Closed quote body) (hname : IsWord name) (hjunk : IsWord junk) :
    Lexeme (replaceAll (wrap name) (wrap junk) (quote :: body ++ [quote])) .literal [] := by
  have hwrap := wrap_ne_nil name
  -- The wrapped name has no quote in it, so replacing stays within the body.
  have hnot : quote ∉ wrap name := fun hmem =>
    (class_of_isWordChar hquote (hname.isWord_wrap.word quote hmem)).2 rfl
  have hreplaced : replaceAll (wrap name) (wrap junk) (quote :: body ++ [quote])
      = quote :: replaceAll (wrap name) (wrap junk) body ++ [quote] := by
    rw [List.cons_append, replaceAll_cons hwrap _ fun h => hwrap (eq_nil_of_prefix_cons hnot h),
      replaceAll_append_cons hwrap _ hnot]
    rfl
  have hclosed : Closed quote (replaceAll (wrap name) (wrap junk) body) :=
    hbody.replaceAll_wrap hquote hjunk
  rw [hreplaced]
  exact .literal hquote hclosed.escapes hclosed.protects

/-- **A token with another name in place of a wrapped one is a token.** -/
theorem Lexeme.rename (h : Lexeme text kind []) (hname : IsWord name) (hjunk : IsPlain junk) :
    ∃ kind, Lexeme (replaceAll (wrap name) (wrap junk) text) kind [] := by
  cases h with
  | literal hquote hbody hopen =>
    exact ⟨_, lexeme_rename_literal hquote ⟨hbody, hopen⟩ hname hjunk.isWord⟩
  | word hc htail _ => exact lexeme_rename_word hc htail hjunk
  | @number c digits _ hc hdigits hbehind =>
    -- Numbers and operators have no room for a wrapped name: no `%`, or only one character.
    have hpercent : '%' ∉ c :: digits := by
      rw [List.mem_cons, not_or]
      refine ⟨?_, fun hmem => absurd (hdigits _ hmem) (by decide)⟩
      rintro rfl
      exact absurd hc (by decide)
    rw [replaceAll_wrap_of_notMem hpercent]
    exact ⟨_, .number hc hdigits hbehind⟩
  | @sign c _ hc hbehind =>
    have huncut : splitFirst (wrap name) [c] = none := by
      rw [splitFirst_eq_none_iff]
      intro hstands
      have hlength := hstands.length_le
      rw [length_wrap, List.length_singleton] at hlength
      omega
    rw [replaceAll_of_uncut (wrap_ne_nil name) _ huncut]
    exact ⟨_, .sign hc hbehind⟩
  | @pair c d _ hpair hbehind =>
    have hpairs : ∀ p ∈ pairs, '%' ∉ [p.1, p.2] := by decide
    rw [replaceAll_wrap_of_notMem (hpairs (c, d) hpair)]
    exact ⟨_, .pair hpair hbehind⟩
  | @triple c d e _ htriple =>
    have htriples : ∀ t ∈ triples, '%' ∉ [t.1, t.2.1, t.2.2] := by decide
    rw [replaceAll_wrap_of_notMem (htriples (c, d, e) htriple)]
    exact ⟨_, .triple htriple⟩

end NaturalNames.Lexer

namespace NaturalNames

open NaturalNames.Text

/-- A name between percent signs as a list of characters. -/
theorem toList_wrap (name : String) : ("%" ++ name ++ "%").toList = wrap name.toList := by
  simp [wrap, String.toList_append]

/-- Where a name is not wrapped there is nothing to replace. -/
theorem toList_renameToken (old new token : String) :
    (renameToken old new token).toList = if token = old then new.toList
      else replaceAll (wrap old.toList) (wrap new.toList) token.toList := by
  rw [renameToken]
  split
  next => rfl
  next =>
    simp only [← toList_wrap]
    split
    next => rw [Text.replace, String.toList_ofList]
    next hoccurs =>
      rw [Text.occurs_iff, ← splitFirst_eq_none_iff, toList_wrap] at hoccurs
      rw [toList_wrap, replaceAll_of_uncut (wrap_ne_nil _) _ hoccurs]

open Lexer in
/-- An identifier among the tokens of a text is a word. -/
theorem isWord_of_tokenize {text name : String} {found : List Token}
    (hfound : Tokenizer.code.tokenize text = .ok found) (hname : ⟨name, .identifier⟩ ∈ found) :
    IsWord name.toList :=
  (lexeme_of_tokens (Tokenizer.code_eq_ok_iff.1 hfound) _ hname).isWord

open Lexer in
/-- The tokens of a snippet are tokens with another name in place of one of them. -/
theorem exists_lexeme_renameToken {name junk : String} {token : Token}
    (h : Lexeme token.text.toList token.kind []) (hname : IsWord name.toList)
    (hjunk : IsPlain junk.toList) :
    ∃ kind, Lexeme (renameToken name junk token.text).toList kind [] := by
  rw [toList_renameToken]
  split
  next => exact hjunk.lexeme
  next => exact h.rename hname hjunk

end NaturalNames
