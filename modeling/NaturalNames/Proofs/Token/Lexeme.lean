import Mathlib.Data.List.TakeWhile
import NaturalNames.Proofs.Text.Class
import NaturalNames.Proofs.Text.Substring
import NaturalNames.Proofs.Token.Delimited

/-!
# `NaturalNames.Proofs.Token.Lexeme`: the grammar of the lexer

The lexer is a sequence of tests, and what a test means depends on those that failed before it. The
grammar says the same without an order. `Separator` and `Lexeme` list the pieces of a text that are
dropped and those that become tokens, `Unclosed` what a text must not end with.

Pieces look at what follows them: a number ends where no character of a number comes next, and a `/`
is an operator unless it starts a comment. So each piece is given together with the text behind it.

* `begins_cons`: every text that is not empty begins with a piece, so the grammar has no holes.
* `Lexeme.of_behind`: what follows a token counts by its first character only, and white space or
  the end of the text may follow any token.

That the lexer agrees with the grammar is in `NaturalNames.Proofs.Token.Lexing`.
-/

set_option autoImplicit false

namespace NaturalNames.Lexer

open NaturalNames.Text

/-! ### The grammar -/

/-- A piece of text that belongs to no token, when `behind` follows it: a white-space character or a
complete comment. -/
inductive Separator : List Char → List Char → Prop
  | blank {c : Char} {behind : List Char} (hc : isBlank c = true) : Separator [c] behind
  | line {body behind : List Char} (hbody : '\n' ∉ body) :
      Separator ('/' :: '/' :: body ++ ['\n']) behind
  /-- The last line of a text needs no end. -/
  | lastLine {body : List Char} (hbody : '\n' ∉ body) : Separator ('/' :: '/' :: body) []
  | block {body behind : List Char} (hbody : ¬ ['*', '/'] <:+: body) :
      Separator ('/' :: '*' :: body ++ ['*', '/']) behind

/-- A character with which no literal, number or word starts, except a `%` in front of a word. -/
structure IsSign (c : Char) : Prop where
  not_blank : isBlank c = false
  not_quote : isQuote c = false
  not_digit : c.isDigit = false
  not_letter : isAlphabetic c = false
  ne_underscore : c ≠ '_'
  ne_dollar : c ≠ '$'

/-- Behind the sign `c`, the character `d` makes a longer operator, a comment or a word of it. -/
def Joins (c d : Char) : Prop :=
  (c, d) ∈ pairs ∨ c = '/' ∧ (d = '/' ∨ d = '*') ∨ c = '%' ∧ (isAlphanumeric d = true ∨ d = '_')

/-- The text of a token and its kind, when `behind` follows it. Of what follows only the first
character counts: it must not be one with which the token would go on. -/
inductive Lexeme : List Char → TokenKind → List Char → Prop
  | literal {quote : Char} {body behind : List Char} (hquote : isQuote quote = true)
      (hbody : Escapes body) (hopen : ¬ Unescaped quote body) :
      Lexeme (quote :: body ++ [quote]) .literal behind
  | number {c : Char} {digits behind : List Char} (hc : c.isDigit = true)
      (hdigits : ∀ d ∈ digits, isNumberChar d = true)
      (hbehind : ∀ d ∈ behind.head?, isNumberChar d = false) :
      Lexeme (c :: digits) .literal behind
  | word {c : Char} {tail behind : List Char} (hc : startsWord c tail = true)
      (htail : ∀ d ∈ tail, isWordChar d = true)
      (hbehind : ∀ d ∈ behind.head?, isWordChar d = false) :
      Lexeme (c :: tail) (wordKind (String.ofList (c :: tail))) behind
  | sign {c : Char} {behind : List Char} (hc : IsSign c)
      (hbehind : ∀ d ∈ behind.head?, ¬ Joins c d) : Lexeme [c] (operatorKind [c]) behind
  | pair {c d : Char} {behind : List Char} (hpair : (c, d) ∈ pairs)
      (hbehind : ∀ e ∈ behind.head?, (c, d, e) ∉ triples) :
      Lexeme [c, d] (operatorKind [c, d]) behind
  | triple {c d e : Char} {behind : List Char} (htriple : (c, d, e) ∈ triples) :
      Lexeme [c, d, e] (operatorKind [c, d, e]) behind

/-- A text that starts a literal or a block comment and does not end it. -/
inductive Unclosed : LexFault → List Char → Prop
  | literal {quote : Char} {rest : List Char} (hquote : isQuote quote = true)
      (hopen : ¬ Unescaped quote rest) : Unclosed (.openLiteral quote) (quote :: rest)
  | comment {body : List Char} (hbody : ¬ ['*', '/'] <:+: body) :
      Unclosed .openComment ('/' :: '*' :: body)

/-- What a text that is not empty begins with. -/
inductive Begins : List Char → Prop
  | separator {gap rest : List Char} (h : Separator gap rest) : Begins (gap ++ rest)
  | lexeme {text rest : List Char} {kind : TokenKind} (h : Lexeme text kind rest) :
      Begins (text ++ rest)
  | unclosed {fault : LexFault} {text : List Char} (h : Unclosed fault text) : Begins text

/-! ### Characters -/

variable {c d : Char} {rest : List Char}

/-- There are three characters that open a literal. -/
theorem eq_of_isQuote (h : isQuote c = true) : c = '\x22' ∨ c = '\x27' ∨ c = '\x60' := by
  simpa [isQuote, or_assoc] using h

/-- A quote protects nothing, so it is not the backslash. -/
theorem ne_backslash_of_isQuote (h : isQuote c = true) : c ≠ '\\' :=
  ne_of_apply_ne isQuote (by rw [h]; decide)

/-- A quote is neither blank nor the beginning of a comment. -/
theorem class_of_isQuote (h : isQuote c = true) : isBlank c = false ∧ c ≠ '/' := by
  rcases eq_of_isQuote h with rfl | rfl | rfl <;> decide

/-- A class without the quotes has no quotes in it. -/
theorem isQuote_eq_false {p : Char → Bool} (h : p c = true)
    (hp : p '\x22' = false ∧ p '\x27' = false ∧ p '\x60' = false) : isQuote c = false := by
  rw [Bool.eq_false_iff]
  intro hquote
  rcases eq_of_isQuote hquote with rfl | rfl | rfl <;> simp_all

/-- A comment starts with a slash and a second slash or a star. -/
theorem startsComment_cons_iff :
    startsComment (c :: rest) = true ↔ c = '/' ∧ ∃ d ∈ rest.head?, d = '/' ∨ d = '*' := by
  constructor
  · intro h
    unfold startsComment at h
    split at h <;> simp_all
  · rintro ⟨rfl, d, hd, rfl | rfl⟩
    all_goals
      obtain ⟨rest', rfl⟩ := List.head?_eq_some_iff.1 hd
      rfl

/-- Without a slash no comment starts. -/
theorem startsComment_of_ne (h : c ≠ '/') : startsComment (c :: rest) = false := by
  rw [Bool.eq_false_iff, ne_eq, startsComment_cons_iff]
  intro hc
  exact h hc.1

/-- A word starts with a letter, an underscore or a dollar sign, or with a percent sign in front of
a letter, a digit or an underscore. -/
theorem startsWord_iff :
    startsWord c rest = true ↔ isAlphabetic c = true ∨ c = '_' ∨ c = '$' ∨
      c = '%' ∧ ∃ d ∈ rest.head?, isAlphanumeric d = true ∨ d = '_' := by
  simp [startsWord, or_assoc, Option.any_eq_true]

/-- Where a word starts, it does so whatever comes behind its second character. -/
theorem startsWord_of_head {rest' : List Char} (h : startsWord c rest = true)
    (hhead : ∀ d ∈ rest.head?, isAlphanumeric d = true ∨ d = '_' → d ∈ rest'.head?) :
    startsWord c rest' = true := by
  rw [startsWord_iff] at h ⊢
  refine h.imp_right (Or.imp_right (Or.imp_right ?_))
  rintro ⟨hc, d, hd, hword⟩
  exact ⟨hc, d, hhead d hd hword, hword⟩

/-- Where a word starts it still does with more text behind. -/
theorem startsWord_append {behind : List Char} (h : startsWord c rest = true) :
    startsWord c (rest ++ behind) = true := by
  refine startsWord_of_head h ?_
  intro d hd _
  simp_all [List.head?_append]

/-- No word starts with a character that starts something else. -/
theorem class_of_startsWord (h : startsWord c rest = true) :
    isBlank c = false ∧ c ≠ '/' ∧ isQuote c = false ∧ c.isDigit = false := by
  rcases startsWord_iff.1 h with hc | rfl | rfl | ⟨rfl, -⟩
  · have hblank : isBlank c = false := by
      rw [Bool.eq_false_iff]
      intro hblank
      simp [isAlphabetic_of_isBlank hblank] at hc
    have hslash : c ≠ '/' := ne_of_apply_ne isAlphabetic (by rw [hc]; decide)
    exact ⟨hblank, hslash, isQuote_eq_false hc (by decide), isDigit_of_isAlphabetic hc⟩
  all_goals decide

/-- A digit is neither blank, nor a slash, nor a quote. -/
theorem class_of_isDigit (h : c.isDigit = true) :
    isBlank c = false ∧ c ≠ '/' ∧ isQuote c = false := by
  have hslash : c ≠ '/' := ne_of_apply_ne Char.isDigit (by rw [h]; decide)
  exact ⟨isBlank_of_isDigit h, hslash, isQuote_eq_false h (by decide)⟩

/-- The first character of an operator of two is a sign. -/
theorem isSign_of_mem_pairs (h : (c, d) ∈ pairs) : IsSign c := by
  have hpairs : ∀ p ∈ pairs, isBlank p.1 = false ∧ isQuote p.1 = false ∧ p.1.isDigit = false ∧
      isAlphabetic p.1 = false ∧ p.1 ≠ '_' ∧ p.1 ≠ '$' := by decide
  obtain ⟨hblank, hquote, hdigit, hletter, hunderscore, hdollar⟩ := hpairs (c, d) h
  exact ⟨hblank, hquote, hdigit, hletter, hunderscore, hdollar⟩

/-- Of the signs only the percent sign can start a word. -/
theorem IsSign.startsWord_iff (hc : IsSign c) :
    startsWord c rest = true ↔ c = '%' ∧ ∃ d ∈ rest.head?, isAlphanumeric d = true ∨ d = '_' := by
  simp [Lexer.startsWord_iff, hc.not_letter, hc.ne_underscore, hc.ne_dollar]

/-- A sign and what follows it are read together if they make a pair, a comment or a word. -/
theorem IsSign.joins_iff (hc : IsSign c) (rest : List Char) :
    Joins c d ↔ (c, d) ∈ pairs ∨ startsComment (c :: d :: rest) = true ∨
      startsWord c (d :: rest) = true := by
  simp [Joins, startsComment_cons_iff, hc.startsWord_iff]

/-- A sign that does not join what follows is an operator by itself. -/
theorem IsSign.alone (hc : IsSign c) (h : ∀ d ∈ rest.head?, ¬ Joins c d) :
    startsComment (c :: rest) = false ∧ startsWord c rest = false ∧
      ∀ d ∈ rest.head?, (c, d) ∉ pairs := by
  cases rest with
  | nil => simp [Bool.eq_false_iff, startsComment_cons_iff, hc.startsWord_iff]
  | cons d rest =>
    have hd := h d rfl
    rw [hc.joins_iff rest, not_or, not_or, Bool.not_eq_true, Bool.not_eq_true] at hd
    obtain ⟨hpair, hcomment, hword⟩ := hd
    refine ⟨hcomment, hword, ?_⟩
    rintro e ⟨⟩
    exact hpair

/-- The pairs of the table start neither a comment nor a word. -/
theorem not_joins_of_mem_pairs (h : (c, d) ∈ pairs) :
    startsComment (c :: d :: rest) = false ∧ startsWord c (d :: rest) = false := by
  have hpairs : ∀ p ∈ pairs, p.1 ≠ '%' ∧ (p.1 = '/' → p.2 ≠ '/' ∧ p.2 ≠ '*') := by decide
  obtain ⟨hpercent, hslash⟩ := hpairs (c, d) h
  rw [Bool.eq_false_iff, ne_eq, startsComment_cons_iff, Bool.eq_false_iff, ne_eq,
    (isSign_of_mem_pairs h).startsWord_iff]
  simp_all

/-! ### What a text begins with -/

/-- A lexeme begins where a comment starts. -/
theorem begins_comment (h : startsComment (c :: rest) = true) : Begins (c :: rest) := by
  obtain ⟨rfl, d, hd, hcomment⟩ := startsComment_cons_iff.1 h
  obtain ⟨text, rfl⟩ := List.head?_eq_some_iff.1 hd
  rcases hcomment with rfl | rfl
  · -- A comment to the end of the line, or of the text.
    by_cases hline : '\n' ∈ text
    · obtain ⟨body, behind, rfl, hbody⟩ := List.eq_append_cons_of_mem hline
      have hgap : Separator ('/' :: '/' :: body ++ ['\n']) behind := .line hbody
      simpa using Begins.separator hgap
    · simpa using Begins.separator (.lastLine hline)
  · -- A comment that is closed, or one that never is.
    by_cases hend : ['*', '/'] <:+: text
    · obtain ⟨body, behind, rfl, hbody⟩ := exists_first_infix (by decide) hend
      have hgap : Separator ('/' :: '*' :: body ++ ['*', '/']) behind := .block hbody
      simpa using Begins.separator hgap
    · exact .unclosed (.comment hend)

/-- A lexeme begins at a quote. -/
theorem begins_quote (h : isQuote c = true) : Begins (c :: rest) := by
  by_cases hend : Unescaped c rest
  · obtain ⟨body, behind, rfl, hbody, hopen⟩ := exists_closing (ne_backslash_of_isQuote h) hend
    have htoken : Lexeme (c :: body ++ [c]) .literal behind := .literal h hbody hopen
    simpa using Begins.lexeme htoken
  · exact .unclosed (.literal h hend)

/-- The longest run of characters of a class, and what follows it. -/
theorem exists_run (p : Char → Bool) (text : List Char) :
    ∃ run behind, text = run ++ behind ∧ (∀ d ∈ run, p d = true) ∧
      ∀ d ∈ behind.head?, p d = false := by
  refine ⟨text.takeWhile p, text.dropWhile p, List.takeWhile_append_dropWhile.symm, ?_, ?_⟩
  · intro d hd
    exact List.mem_takeWhile_imp hd
  · intro d hd
    have hstop := List.head?_dropWhile_not p text
    rwa [hd] at hstop

/-- A lexeme begins at a digit. -/
theorem begins_number (h : c.isDigit = true) : Begins (c :: rest) := by
  obtain ⟨digits, behind, rfl, hdigits, hbehind⟩ := exists_run isNumberChar rest
  exact .lexeme (.number h hdigits hbehind)

/-- A lexeme begins where a word starts. -/
theorem begins_word (h : startsWord c rest = true) : Begins (c :: rest) := by
  obtain ⟨tail, behind, rfl, htail, hbehind⟩ := exists_run isWordChar rest
  have hstart : startsWord c tail = true := by
    refine startsWord_of_head h ?_
    intro d hd hword
    -- What may follow a `%` goes on with the word, so it stands in the tail.
    have hd' : isWordChar d = true := by
      rcases hword with hword | rfl
      · simp [isWordChar, hword]
      · decide
    cases tail with
    | nil =>
      rw [hbehind d hd] at hd'
      cases hd'
    | cons e tail => exact hd
  exact .lexeme (.word hstart htail hbehind)

/-- A sign that starts neither a comment nor a word begins an operator. -/
theorem begins_operator (hc : IsSign c) (hcomment : startsComment (c :: rest) = false)
    (hword : startsWord c rest = false) : Begins (c :: rest) := by
  cases rest with
  | nil => exact .lexeme (.sign hc (by simp))
  | cons d rest =>
    -- The longest operator is taken: three characters, then two, then one.
    by_cases hpair : (c, d) ∈ pairs
    · by_cases htriple : ∃ e ∈ rest.head?, (c, d, e) ∈ triples
      · obtain ⟨e, he, htriple⟩ := htriple
        obtain ⟨behind, rfl⟩ := List.head?_eq_some_iff.1 he
        exact .lexeme (.triple htriple)
      · have hbehind : ∀ e ∈ rest.head?, (c, d, e) ∉ triples := fun e he h => htriple ⟨e, he, h⟩
        exact .lexeme (.pair hpair hbehind)
    · have hbehind : ∀ e ∈ (d :: rest).head?, ¬ Joins c e := by
        rintro e ⟨⟩
        rw [hc.joins_iff rest, hcomment, hword]
        simp [hpair]
      exact .lexeme (.sign hc hbehind)

/-- Every text that is not empty begins with a separator, a token or something that does not end. -/
theorem begins_cons (c : Char) (rest : List Char) : Begins (c :: rest) := by
  -- The order of these cases is that of the tokenizer; each one excludes those before it.
  by_cases hblank : isBlank c = true
  · exact .separator (.blank hblank)
  by_cases hcomment : startsComment (c :: rest) = true
  · exact begins_comment hcomment
  by_cases hquote : isQuote c = true
  · exact begins_quote hquote
  by_cases hdigit : c.isDigit = true
  · exact begins_number hdigit
  by_cases hword : startsWord c rest = true
  · exact begins_word hword
  have hstart := mt startsWord_iff.2 hword
  have hsign : IsSign c := by
    constructor <;> simp_all
  exact begins_operator hsign (Bool.not_eq_true _ ▸ hcomment) (Bool.not_eq_true _ ▸ hword)

/-! ### What follows a token -/

variable {text behind : List Char} {kind : TokenKind}

/-- White space ends a word. -/
theorem isWordChar_of_isBlank (h : isBlank d = true) : isWordChar d = false := by
  have hne : d ≠ '_' ∧ d ≠ '$' ∧ d ≠ '%' := by
    refine ⟨?_, ?_, ?_⟩ <;> exact ne_of_apply_ne isBlank (by rw [h]; decide)
  simp [isWordChar, isAlphanumeric_of_isBlank h, hne]

/-- White space ends a number. -/
theorem isNumberChar_of_isBlank (h : isBlank d = true) : isNumberChar d = false := by
  have hascii : d.isAlphanum = false := by
    rw [Bool.eq_false_iff]
    intro hascii
    have hd := isAlphanumeric_of_isAlphanum hascii
    rw [isAlphanumeric_of_isBlank h] at hd
    cases hd
  have hne : d ≠ '.' ∧ d ≠ '_' := by
    refine ⟨?_, ?_⟩ <;> exact ne_of_apply_ne isBlank (by rw [h]; decide)
  simp [isNumberChar, hascii, hne]

/-- Nothing joins the white space behind it. -/
theorem not_joins_of_isBlank (h : isBlank d = true) : ¬ Joins c d := by
  have hpairs : ∀ p ∈ pairs, isBlank p.2 = false := by decide
  rintro (hpair | ⟨-, rfl | rfl⟩ | ⟨-, hd | rfl⟩)
  · rw [hpairs (c, d) hpair] at h
    cases h
  · exact absurd h (by decide)
  · exact absurd h (by decide)
  · rw [isAlphanumeric_of_isBlank h] at hd
    cases hd
  · exact absurd h (by decide)

/-- White space is the third character of no operator. -/
theorem not_mem_triples_of_isBlank {e : Char} (h : isBlank e = true) : (c, d, e) ∉ triples := by
  have htriples : ∀ t ∈ triples, isBlank t.2.2 = false := by decide
  intro htriple
  rw [htriples _ htriple] at h
  cases h

/-- **What follows a token counts by its first character only**, and white space or the end of the
text may follow any token: it stays the token that it is. -/
theorem Lexeme.of_behind {behind' : List Char} (h : Lexeme text kind behind)
    (hbehind : ∀ d ∈ behind'.head?, isBlank d = true ∨ d ∈ behind.head?) :
    Lexeme text kind behind' := by
  -- A condition on the first character behind, which white space meets, can be handed on.
  have hnext : ∀ p : Char → Prop, (∀ d, isBlank d = true → p d) → (∀ d ∈ behind.head?, p d) →
      ∀ d ∈ behind'.head?, p d := by
    intro p hblank hp d hd
    exact (hbehind d hd).elim (hblank d) (hp d)
  cases h with
  | literal hquote hbody hopen => exact .literal hquote hbody hopen
  | number hc hdigits hp =>
    exact .number hc hdigits (hnext _ (fun _ => isNumberChar_of_isBlank) hp)
  | word hc htail hp => exact .word hc htail (hnext _ (fun _ => isWordChar_of_isBlank) hp)
  | sign hc hp => exact .sign hc (hnext _ (fun _ => not_joins_of_isBlank) hp)
  | pair hpair hp => exact .pair hpair (hnext _ (fun _ => not_mem_triples_of_isBlank) hp)
  | triple htriple => exact .triple htriple

end NaturalNames.Lexer
