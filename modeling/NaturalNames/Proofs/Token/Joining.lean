import Mathlib
import NaturalNames.Perturbation
import NaturalNames.Proofs.Token.Layout

/-!
# `NaturalNames.Proofs.Token.Joining`: tokens and lines put together

A perturbed snippet is written as its tokens with one space between them, and is read again when it
is scored. This is sound if tokens are read from such a text as they were from the first one, which
`tokenize_respaced` says for white space of any kind. Comments are lost on the way, and with them
the places where tokens touched. The proof needs nothing about a token but that white space may
follow it.

`tokenize_append_newline` is about lines. Whatever the lexer looks for at the end of a text, a line
break ends it: a word or a number, an operator that could be longer, a line comment. Literals and
block comments do go on over a line break, but a text that ends within one has no tokens.
-/

set_option autoImplicit false

namespace NaturalNames

namespace Lexer

open NaturalNames.Text

variable {gap text behind : List Char} {found : List Token}

/-! ### White space between tokens -/

/-- White space in every place, and some of it between two tokens. -/
structure Spaced (placed : List Placed) (last : List Char) : Prop where
  blank_gap : ∀ p ∈ placed, ∀ c ∈ p.gap, isBlank c = true
  gap_ne_nil : ∀ p ∈ placed.tail, p.gap ≠ []
  blank_last : ∀ c ∈ last, isBlank c = true

/-- Behind a token stands the next gap, or the end of the text with its white space. -/
theorem Spaced.blank_behind {p : Placed} {placed : List Placed} {last : List Char}
    (h : Spaced (p :: placed) last) : ∀ c ∈ (layOut placed last).head?, isBlank c = true := by
  intro c hc
  cases placed with
  | nil => exact h.blank_last c (List.mem_of_mem_head? hc)
  | cons q placed =>
    have hne := h.gap_ne_nil q List.mem_cons_self
    rw [layOut_cons, List.head?_append_of_ne_nil _ hne] at hc
    exact h.blank_gap q (by simp) c (List.mem_of_mem_head? hc)

/-- Tokens that are tokens by themselves are tokens with white space between them. -/
theorem Spaced.wellPlaced {placed : List Placed} {last : List Char} (h : Spaced placed last)
    (htokens : ∀ p ∈ placed, Lexeme p.token.text.toList p.token.kind []) :
    WellPlaced placed last := by
  -- A blank behind a token ends it, whatever its kind, so each token stays a lexeme where it
  -- stands.
  induction placed with
  | nil => exact .nil
  | cons p placed ih =>
    rw [List.forall_mem_cons] at htokens
    have hgap : ∀ c ∈ p.gap, isBlank c = true := h.blank_gap p List.mem_cons_self
    have hplaced : Spaced placed last := by
      constructor
      · intro q hq
        exact h.blank_gap q (List.mem_cons_of_mem p hq)
      · intro q hq
        exact h.gap_ne_nil q (List.mem_of_mem_tail hq)
      · exact h.blank_last
    exact .cons (gap_of_blank hgap) (htokens.1.of_behind fun c hc => .inl (h.blank_behind c hc))
      (ih hplaced htokens.2)

/-- Every token that was read is one by itself. -/
theorem lexeme_of_tokens (h : tokens text = .ok found) :
    ∀ token ∈ found, Lexeme token.text.toList token.kind [] := by
  obtain ⟨placed, last, rfl, -, hplaced, -⟩ := exists_layOut_of_tokens h
  intro token htoken
  obtain ⟨p, hp, rfl⟩ := List.mem_map.1 htoken
  exact hplaced.lexeme p hp

/-- Tokens are read, however they are spaced. -/
theorem tokens_layOut_of_lexemes {placed : List Placed} {last : List Char}
    (hspaced : Spaced placed last)
    (htokens : ∀ p ∈ placed, Lexeme p.token.text.toList p.token.kind []) :
    tokens (layOut placed last) = .ok (placed.map Placed.token) := by
  have hlast : tokens last = .ok [] := by
    have hgap : Gap last [] := gap_of_blank hspaced.blank_last
    have hlast := tokens_gap hgap
    rwa [List.append_nil, tokens] at hlast
  rw [tokens_layOut (hspaced.wellPlaced htokens), hlast]
  simp [Except.map]

/-- Tokens that were read once are read again, however they are spaced. -/
theorem tokens_layOut_of_spaced (h : tokens text = .ok found) {placed : List Placed}
    {last : List Char} (hfound : placed.map Placed.token = found) (hspaced : Spaced placed last) :
    tokens (layOut placed last) = .ok found := by
  rw [← hfound]
  refine tokens_layOut_of_lexemes hspaced fun p hp => lexeme_of_tokens h p.token ?_
  rw [← hfound]
  exact List.mem_map_of_mem hp

/-! ### One space between two tokens -/

/-- Tokens with one space between two of them. -/
def singleSpaced : List Token → List Placed
  | [] => []
  | token :: rest => ⟨[], token⟩ :: rest.map (Placed.mk [' '])

/-- Tokens with single spaces are the tokens. -/
theorem map_token_singleSpaced (found : List Token) :
    (singleSpaced found).map Placed.token = found := by
  cases found <;> simp [singleSpaced, Function.comp_def]

/-- Single spaces keep all tokens apart. -/
theorem spaced_singleSpaced (found : List Token) : Spaced (singleSpaced found) [] := by
  have hspace : isBlank ' ' = true := by decide
  constructor <;> cases found <;> simp [singleSpaced, hspace]

/-- Tokens with single spaces are written as their texts with spaces between them. -/
theorem layOut_singleSpaced (found : List Token) :
    layOut (singleSpaced found) [] = (" ".intercalate (found.map Token.text)).toList := by
  rw [String.toList_intercalate, List.map_map]
  -- Behind the first text each further one comes with a space in front.
  have hfirst : ∀ (text : List Char) (texts : List (List Char)),
      [' '].intercalate (text :: texts) = text ++ texts.flatMap fun text => ' ' :: text := by
    intro text texts
    induction texts generalizing text with
    | nil => simp
    | cons next texts ih =>
      rw [List.intercalate_cons_cons, ih]
      simp
  cases found with
  | nil => rfl
  | cons token rest =>
    show layOut (singleSpaced (token :: rest)) [] = [' '].intercalate _
    rw [List.map_cons, hfirst]
    simp [singleSpaced, layOut, List.flatMap_map]

/-- Texts of tokens are read as they are from a text that has them with a space between two. -/
theorem texts_intercalate {texts : List String}
    (h : ∀ text ∈ texts, ∃ kind, Lexeme text.toList kind []) :
    Tokenizer.code.texts (" ".intercalate texts) = .ok texts := by
  have hexists : ∃ found : List Token, found.map Token.text = texts ∧
      -- The kinds, one for each text, make the texts a list of tokens.
      ∀ token ∈ found, Lexeme token.text.toList token.kind [] := by
    induction texts with
    | nil => exact ⟨[], rfl, by simp⟩
    | cons text texts ih =>
      rw [List.forall_mem_cons] at h
      obtain ⟨⟨kind, htoken⟩, hrest⟩ := h
      obtain ⟨found, rfl, hfound⟩ := ih hrest
      exact ⟨⟨text, kind⟩ :: found, rfl, List.forall_mem_cons.2 ⟨htoken, hfound⟩⟩
  obtain ⟨found, rfl, hfound⟩ := hexists
  have hsingle := tokens_layOut_of_lexemes (spaced_singleSpaced found) <| by
    intro p hp
    refine hfound p.token ?_
    rw [← map_token_singleSpaced found]
    exact List.mem_map_of_mem hp
  rw [layOut_singleSpaced, map_token_singleSpaced] at hsingle
  exact Tokenizer.texts_eq_ok (Tokenizer.code_eq_ok_iff.2 hsingle)

/-! ### Lines -/

/-- A separator stays one in front of a new line, or goes on to the end of its line. -/
theorem tokens_separator_newline (h : Separator gap behind) (rest : List Char) :
    tokens (gap ++ (behind ++ '\n' :: rest)) = tokens (behind ++ '\n' :: rest) := by
  cases h with
  | blank hc => exact tokens_separator (.blank hc)
  | line hbody => exact tokens_separator (.line hbody)
  | @lastLine body hbody =>
    -- The line break ends the comment, where it would have been white space.
    have hline : Separator ('/' :: '/' :: body ++ ['\n']) rest := .line hbody
    have hblank : Separator ['\n'] rest := .blank (by decide)
    have hgap := tokens_separator hline
    rw [List.append_assoc] at hgap
    exact hgap.trans (tokens_separator hblank).symm
  | block hbody => exact tokens_separator (.block hbody)

/-- Nothing that is read before a line break goes on behind it. -/
theorem tokens_append_newline (h : tokens text = .ok found) (rest : List Char) :
    tokens (text ++ '\n' :: rest) = (tokens rest).map fun more => found ++ more := by
  -- Induction on what is read first: a gap, a token or a token that is not closed.
  have hnewline : isBlank '\n' = true := by decide
  induction text using lexing_induction generalizing found with
  | nil =>
    rw [tokens] at h
    cases h
    have hblank : Separator ['\n'] rest := .blank hnewline
    have hrest : tokens ('\n' :: rest) = tokens rest := tokens_separator hblank
    rw [List.nil_append, hrest]
    cases tokens rest <;> rfl
  | separator gap behind hgap ih =>
    rw [tokens_separator hgap] at h
    rw [List.append_assoc, tokens_separator_newline hgap, ih h]
  | lexeme text kind behind htoken ih =>
    rw [tokens_lexeme htoken] at h
    cases hbehind : tokens behind with
    | error fault =>
      rw [hbehind] at h
      cases h
    | ok found' =>
      rw [hbehind] at h
      cases h
      -- The line break ends a last token, and otherwise the token is followed by what followed it
      -- before.
      have htoken' : Lexeme text kind (behind ++ '\n' :: rest) := by
        refine htoken.of_behind ?_
        intro c hc
        cases behind with
        | nil =>
          cases hc
          exact .inl hnewline
        | cons d behind => exact .inr hc
      rw [List.append_assoc, tokens_lexeme htoken', ih hbehind]
      cases tokens rest <;> rfl
  | unclosed fault text hopen =>
    rw [tokens_unclosed hopen] at h
    cases h

end Lexer

/-- A name in place of itself changes no token. -/
theorem renameToken_self (name token : String) : renameToken name name token = token := by
  unfold renameToken
  split
  next h => exact h.symm
  · simp only
    split
    · rw [Text.replace, Text.replaceAll_self, String.ofList_toList]
      simp
    · rfl

open Lexer in
/-- **Tokens are read again from what is put together of them.** Take the tokens of a text and put
any white space in front of each of them and at the end, at least one character of it between two.
The text that comes of it has the same tokens. So has the text with one space between tokens, and a
snippet that is written anew with a name in place of itself. -/
theorem tokenize_respaced {text : String} {found : List Token}
    (h : Tokenizer.code.tokenize text = .ok found) :
    (∀ placed last, placed.map Placed.token = found → Spaced placed last →
      Tokenizer.code.tokenize (String.ofList (layOut placed last)) = .ok found) ∧
    Tokenizer.code.tokenize (" ".intercalate (found.map Token.text)) = .ok found ∧
    ∀ (scope : Scope) (name : String), scope.snippet = text →
      ∃ perturbed, perturbScope .code scope name name = .ok perturbed ∧
        Tokenizer.code.tokenize perturbed.snippet = .ok found := by
  -- The list was read from a text, so all of its tokens are lexemes; any blanks between them will
  -- do.
  have htokens := Tokenizer.code_eq_ok_iff.1 h
  have hspaced : ∀ placed last, placed.map Placed.token = found → Spaced placed last →
      Tokenizer.code.tokenize (String.ofList (layOut placed last)) = .ok found := by
    intro placed last hfound hspaced
    rw [Tokenizer.code_eq_ok_iff, String.toList_ofList]
    exact tokens_layOut_of_spaced htokens hfound hspaced
  have hjoined : Tokenizer.code.tokenize (" ".intercalate (found.map Token.text)) = .ok found := by
    have hsingle := hspaced _ [] (map_token_singleSpaced found) (spaced_singleSpaced found)
    rwa [layOut_singleSpaced, String.ofList_toList] at hsingle
  refine ⟨hspaced, hjoined, ?_⟩
  intro scope name hscope
  refine ⟨scope.withSnippet (" ".intercalate (found.map Token.text)), ?_, hjoined⟩
  -- Renaming a name to itself changes no token, so the snippet is the tokens with single blanks.
  have hrename : renameToken name name = id := funext (renameToken_self name)
  rw [perturbScope, Tokenizer.texts, hscope, h, hrename]
  simp [Except.map]

open Lexer in
/-- An operator, a wrapped name, a number and a literal with a line of its own, with other white
space between them than before and without the comment. -/
theorem tokenize_respaced_literal :
    let found : List Token := [⟨"%", .operator⟩, ⟨"%x%", .identifier⟩, ⟨">>=", .operator⟩,
      ⟨"0.5e", .literal⟩, ⟨"'\\'\n'", .literal⟩]
    let placed : List Placed := [⟨[], ⟨"%", .operator⟩⟩, ⟨['\n'], ⟨"%x%", .identifier⟩⟩,
      ⟨['\t', ' '], ⟨">>=", .operator⟩⟩, ⟨[' '], ⟨"0.5e", .literal⟩⟩,
      ⟨['\r'], ⟨"'\\'\n'", .literal⟩⟩]
    let scope := Scope.ofSnippet "%%x%>>=0.5e/*/ */'\\'\n'" .var
    Tokenizer.code.tokenize scope.snippet = .ok found ∧
      placed.map Placed.token = found ∧ Spaced placed ['\n'] ∧
      Tokenizer.code.tokenize (String.ofList (layOut placed ['\n'])) = .ok found ∧
      Tokenizer.code.tokenize (" ".intercalate (found.map Token.text)) = .ok found ∧
      ∃ perturbed, perturbScope .code scope "%x%" "%x%" = .ok perturbed ∧
        Tokenizer.code.tokenize perturbed.snippet = .ok found := by
  intro found placed scope
  have htokenize : Tokenizer.code.tokenize scope.snippet = .ok found := by cbv
  have hblank : Text.isBlank '\n' = true ∧ Text.isBlank '\t' = true ∧ Text.isBlank ' ' = true ∧
      Text.isBlank '\r' = true := by decide
  -- The gaps hold line breaks, tabs and a carriage return, and none is empty but the first.
  have hspaced : Spaced placed ['\n'] := by
    constructor
    · simp [placed, hblank]
    · simp [placed]
    · simp [hblank]
  obtain ⟨hlaid, hjoined, hperturb⟩ := tokenize_respaced htokenize
  exact ⟨htokenize, rfl, hspaced, hlaid placed _ rfl hspaced, hjoined, hperturb scope "%x%" rfl⟩

open Lexer in
/-- **Texts are read line by line.** If a text has tokens, then with a line break and another text
behind it has these and the tokens of the other, and fails as the other one does if that has none.
The text itself may have lines inside literals and comments. -/
theorem tokenize_append_newline {a : String} {found : List Token}
    (h : Tokenizer.code.tokenize a = .ok found) (b : String) :
    Tokenizer.code.tokenize (a ++ "\n" ++ b)
      = (Tokenizer.code.tokenize b).map fun more => found ++ more := by
  show (tokens (a ++ "\n" ++ b).toList).mapError Error.tokenize
    = ((tokens b.toList).mapError Error.tokenize).map _
  have hjoined : (a ++ "\n" ++ b).toList = a.toList ++ '\n' :: b.toList := by
    simp [String.toList_append]
  rw [hjoined, tokens_append_newline (Tokenizer.code_eq_ok_iff.1 h)]
  cases tokens b.toList <;> rfl

/-- A first text that ends with a sign and a comment, in front of a text with a token and of one
with an open comment. -/
theorem tokenize_append_newline_comment :
    let found : List Token := [⟨"a", .identifier⟩, ⟨"/", .operator⟩]
    Tokenizer.code.tokenize "a /* \n */ / // b" = .ok found ∧
      Tokenizer.code.tokenize ("a /* \n */ / // b" ++ "\n" ++ "/ c")
        = .ok (found ++ [⟨"/", .operator⟩, ⟨"c", .identifier⟩]) ∧
      Tokenizer.code.tokenize ("a /* \n */ / // b" ++ "\n" ++ "c /*/")
        = .error (.tokenize .openComment) := by
  intro found
  have htokenize : Tokenizer.code.tokenize "a /* \n */ / // b" = .ok found := by cbv
  have htoken : Tokenizer.code.tokenize "/ c" = .ok [⟨"/", .operator⟩, ⟨"c", .identifier⟩] := by cbv
  have hopen : Tokenizer.code.tokenize "c /*/" = .error (.tokenize .openComment) := by cbv
  refine ⟨htokenize, ?_, ?_⟩
  · rw [tokenize_append_newline htokenize, htoken]
    rfl
  · rw [tokenize_append_newline htokenize, hopen]
    rfl

end NaturalNames
