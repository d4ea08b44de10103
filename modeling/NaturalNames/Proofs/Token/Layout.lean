import NaturalNames.Proofs.Token.Lexing

/-!
# `NaturalNames.Proofs.Token.Layout`: a text is its tokens and the gaps between them

Tokens have no positions, so the way back from tokens to the text has to be told what stood between
them. A `Placed` token has the gap in front of it, and `layOut` writes a list of these.

The two directions are `tokens_layOut`, by which the lexer reads what was laid out, and
`exists_layOut`, by which every text is laid out up to its end or up to something that does not end.
From both comes `text_is_tokens_and_gaps`, the statement for texts with tokens and texts without.
-/

set_option autoImplicit false

namespace NaturalNames.Lexer

open NaturalNames.Text

/-! ### Gaps -/

/-- A gap between tokens, when `behind` follows it: separators, one after the other. -/
inductive Gap : List Char → List Char → Prop
  | nil {behind : List Char} : Gap [] behind
  | cons {piece gap behind : List Char} (hpiece : Separator piece (gap ++ behind))
      (hgap : Gap gap behind) : Gap (piece ++ gap) behind

variable {gap text behind : List Char}

/-- A gap gives no tokens. -/
theorem tokens_gap (h : Gap gap behind) : tokens (gap ++ behind) = tokens behind := by
  induction h with
  | nil => rfl
  | cons hpiece _ ih => rw [List.append_assoc, tokens_separator hpiece, ih]

/-- White space is a gap. -/
theorem gap_of_blank (h : ∀ c ∈ gap, isBlank c = true) : Gap gap behind := by
  induction gap with
  | nil => exact .nil
  | cons c gap ih =>
    rw [List.forall_mem_cons] at h
    exact .cons (.blank h.1) (ih h.2)

/-! ### Tokens and gaps -/

/-- A token and the gap in front of it. -/
structure Placed where
  gap : List Char
  token : Token

/-- The text of tokens in their places, with `last` behind them. -/
def layOut (placed : List Placed) (last : List Char) : List Char :=
  placed.flatMap (fun p => p.gap ++ p.token.text.toList) ++ last

/-- Without tokens there is the last gap. -/
theorem layOut_nil (last : List Char) : layOut [] last = last := rfl

/-- A token is written behind its gap and in front of the others. -/
theorem layOut_cons (p : Placed) (placed : List Placed) (last : List Char) :
    layOut (p :: placed) last = p.gap ++ (p.token.text.toList ++ layOut placed last) := by
  simp [layOut]

/-- Each token is one where it stands, and in front of it is nothing but a gap. -/
inductive WellPlaced : List Placed → List Char → Prop
  | nil {last : List Char} : WellPlaced [] last
  | cons {p : Placed} {placed : List Placed} {last : List Char}
      (hgap : Gap p.gap (p.token.text.toList ++ layOut placed last))
      (htoken : Lexeme p.token.text.toList p.token.kind (layOut placed last))
      (hplaced : WellPlaced placed last) : WellPlaced (p :: placed) last

/-- A lexeme has at least one character. -/
theorem Lexeme.ne_nil {kind : TokenKind} (h : Lexeme text kind behind) : text ≠ [] := by
  cases h <;> simp

/-- A token that is one in some place is one by itself. -/
theorem WellPlaced.lexeme {placed : List Placed} {last : List Char} (h : WellPlaced placed last) :
    ∀ p ∈ placed, Lexeme p.token.text.toList p.token.kind [] := by
  induction h with
  | nil => simp
  | cons _ htoken _ ih =>
    rw [List.forall_mem_cons]
    exact ⟨htoken.of_behind (by simp), ih⟩

/-- From a text that is laid out well, the lexer reads the tokens that were laid out. -/
theorem tokens_layOut {placed : List Placed} {last : List Char} (h : WellPlaced placed last) :
    tokens (layOut placed last)
      = (tokens last).map fun found => placed.map Placed.token ++ found := by
  induction h with
  | @nil last =>
    rw [layOut_nil]
    cases tokens last <;> rfl
  | @cons p placed last hgap htoken _ ih =>
    rw [layOut_cons, tokens_gap hgap, tokens_lexeme htoken, ih]
    cases tokens last with
    | error fault => rfl
    | ok found =>
      rw [String.ofList_toList]
      rfl

/-- Every text is laid out well up to its end, or up to something that does not end. -/
theorem exists_layOut (text : List Char) :
    ∃ placed last rest, text = layOut placed (last ++ rest) ∧ WellPlaced placed (last ++ rest) ∧
      Gap last rest ∧ (rest = [] ∨ ∃ fault, Unclosed fault rest) := by
  induction text using lexing_induction with
  | nil => exact ⟨[], [], [], rfl, .nil, .nil, .inl rfl⟩
  -- A gap goes to the gap in front of the next token, or to the last gap if there is no token.
  | separator gap behind hgap ih =>
    obtain ⟨placed, last, rest, rfl, hplaced, hlast, hrest⟩ := ih
    cases hplaced with
    | nil =>
      refine ⟨[], gap ++ last, rest, ?_, .nil, .cons hgap hlast, hrest⟩
      simp [layOut_nil]
    | @cons p placed _ hpgap htoken hplaced =>
      rw [layOut_cons] at hgap ⊢
      refine ⟨⟨gap ++ p.gap, p.token⟩ :: placed, last, rest, ?_, ?_, hlast, hrest⟩
      · simp [layOut_cons]
      · exact .cons (.cons hgap hpgap) htoken hplaced
  -- A token is placed with no gap before it; a gap read before it is added by its own case.
  | lexeme text kind behind htoken ih =>
    obtain ⟨placed, last, rest, rfl, hplaced, hlast, hrest⟩ := ih
    refine ⟨⟨[], ⟨String.ofList text, kind⟩⟩ :: placed, last, rest, ?_, ?_, hlast, hrest⟩
    · simp [layOut_cons]
    · refine .cons .nil ?_ hplaced
      simpa using htoken
  | unclosed fault text h => exact ⟨[], [], text, rfl, .nil, .nil, .inr ⟨fault, h⟩⟩

/-- A text that has tokens is laid out well with them. -/
theorem exists_layOut_of_tokens {found : List Token} (h : tokens text = .ok found) :
    ∃ placed last, placed.map Placed.token = found ∧ text = layOut placed last ∧
      WellPlaced placed last ∧ Gap last [] := by
  obtain ⟨placed, last, rest, rfl, hplaced, hlast, hrest⟩ := exists_layOut text
  rw [tokens_layOut hplaced, tokens_gap hlast] at h
  rcases hrest with rfl | ⟨fault, hrest⟩
  · rw [tokens] at h
    simp only [Except.map, List.append_nil, Except.ok.injEq] at h
    rw [List.append_nil] at hplaced ⊢
    exact ⟨placed, last, h, rfl, hplaced, hlast⟩
  · rw [tokens_unclosed hrest] at h
    cases h

/-- A text that has none is laid out well up to what does not end. -/
theorem exists_layOut_of_fault {fault : LexFault} (h : tokens text = .error fault) :
    ∃ placed last rest, text = layOut placed (last ++ rest) ∧ WellPlaced placed (last ++ rest) ∧
      Gap last rest ∧ Unclosed fault rest := by
  obtain ⟨placed, last, rest, rfl, hplaced, hlast, hrest⟩ := exists_layOut text
  rw [tokens_layOut hplaced, tokens_gap hlast] at h
  rcases hrest with rfl | ⟨fault', hrest⟩
  · rw [tokens] at h
    cases h
  · rw [tokens_unclosed hrest] at h
    cases h
    exact ⟨placed, last, rest, rfl, hplaced, hlast, hrest⟩

/-- No token that is well placed is empty. -/
theorem WellPlaced.text_ne_empty {placed : List Placed} {last : List Char}
    (h : WellPlaced placed last) : ∀ p ∈ placed, p.token.text ≠ "" := by
  intro p hp hempty
  have htoken := h.lexeme p hp
  rw [hempty] at htoken
  exact htoken.ne_nil rfl

/-- **The lexer loses nothing and invents nothing.** Of every text it reads tokens, and the text is
these with gaps of white space and comments in front of each of them and at the end; or it reports
what does not end, and the text is tokens and gaps up to there. -/
theorem text_is_tokens_and_gaps (text : String) :
    (∃ placed last,
      Tokenizer.code.tokenize text = .ok (placed.map Placed.token) ∧
      text.toList = layOut placed last ∧ (∀ p ∈ placed, p.token.text ≠ "") ∧
      WellPlaced placed last ∧ Gap last []) ∨
    ∃ fault placed last rest,
      Tokenizer.code.tokenize text = .error (.tokenize fault) ∧
      text.toList = layOut placed (last ++ rest) ∧ (∀ p ∈ placed, p.token.text ≠ "") ∧
      WellPlaced placed (last ++ rest) ∧ Gap last rest ∧ Unclosed fault rest := by
  have htokenize : Tokenizer.code.tokenize text = (tokens text.toList).mapError .tokenize := rfl
  cases htokens : tokens text.toList with
  | ok found =>
    obtain ⟨placed, last, rfl, htext, hplaced, hlast⟩ := exists_layOut_of_tokens htokens
    rw [htokens] at htokenize
    exact .inl ⟨placed, last, htokenize, htext, hplaced.text_ne_empty, hplaced, hlast⟩
  | error fault =>
    obtain ⟨placed, last, rest, htext, hplaced, hlast, hrest⟩ := exists_layOut_of_fault htokens
    rw [htokens] at htokenize
    exact .inr ⟨fault, placed, last, rest, htokenize, htext, hplaced.text_ne_empty, hplaced, hlast,
      hrest⟩

/-- The slash of the opening does not end a comment, and a protected quote no literal. -/
example :
    Tokenizer.code.tokenize "a /*/ b" = .error (.tokenize .openComment) ∧
      Tokenizer.code.tokenize "a \x27\\\x27" = .error (.tokenize (.openLiteral '\x27')) := by
  constructor <;> cbv

end NaturalNames.Lexer
