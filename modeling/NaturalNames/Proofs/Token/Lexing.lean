import NaturalNames.Proofs.Token.Lexeme

/-!
# `NaturalNames.Proofs.Token.Lexing`: the lexer reads the grammar

A step of the lexer is taken apart once, arm by arm. After that it is known by the piece at the
beginning of the text: `step_of_separator`, `step_of_lexeme` and `step_of_unclosed` say what a step
does on each, `tokens_separator`, `tokens_lexeme` and `tokens_unclosed` what the lexer does.

`lexing_induction` is the induction that goes with them. It cuts a text into the pieces of the
grammar, and nothing that is proved with it has to look at the step again.
-/

set_option autoImplicit false

namespace NaturalNames.Lexer

open NaturalNames.Text

variable {c d : Char} {rest : List Char}

/-! ### The arms of a step -/

/-- White space gives no token. -/
theorem step_blank (h : isBlank c = true) : step c rest = .ok (none, rest) := by
  rw [step, if_pos h]

/-- A comment gives no token, and the text goes on behind it. -/
theorem step_comment (h : startsComment (c :: rest) = true) :
    step c rest = (afterComment rest).map fun rest' => (none, rest') := by
  obtain ⟨rfl, -⟩ := startsComment_cons_iff.1 h
  rw [step, if_neg (by decide), if_pos h]

/-- A quote with its body is a literal. -/
theorem step_literal (h : isQuote c = true) {body rest' : List Char}
    (hbody : literalBody c rest = some (body, rest')) :
    step c rest = .ok (some ⟨String.ofList (c :: body), .literal⟩, rest') := by
  obtain ⟨hblank, hslash⟩ := class_of_isQuote h
  simp only [step, hblank, startsComment_of_ne hslash, h, hbody, if_true, Bool.false_eq_true,
    if_false]

/-- A quote without its body is a fault. -/
theorem step_openLiteral (h : isQuote c = true) (hbody : literalBody c rest = none) :
    step c rest = .error (.openLiteral c) := by
  obtain ⟨hblank, hslash⟩ := class_of_isQuote h
  simp only [step, hblank, startsComment_of_ne hslash, h, hbody, if_true, Bool.false_eq_true,
    if_false]

/-- A digit and what a number goes on with are a literal. -/
theorem step_number (h : c.isDigit = true) :
    step c rest = .ok (some ⟨String.ofList (c :: rest.takeWhile isNumberChar), .literal⟩,
      rest.dropWhile isNumberChar) := by
  obtain ⟨hblank, hslash, hquote⟩ := class_of_isDigit h
  simp only [step, hblank, startsComment_of_ne hslash, hquote, h, if_true, Bool.false_eq_true,
    if_false]

/-- Where a word starts, it and what a word goes on with are a token. -/
theorem step_word (h : startsWord c rest = true) :
    step c rest = .ok (some ⟨String.ofList (c :: rest.takeWhile isWordChar),
      wordKind (String.ofList (c :: rest.takeWhile isWordChar))⟩, rest.dropWhile isWordChar) := by
  obtain ⟨hblank, hslash, hquote, hdigit⟩ := class_of_startsWord h
  simp only [step, hblank, startsComment_of_ne hslash, hquote, hdigit, h, if_true,
    Bool.false_eq_true, if_false]

/-- A sign with what it joins is an operator. -/
theorem step_operator (hc : IsSign c) (hcomment : startsComment (c :: rest) = false)
    (hword : startsWord c rest = false) :
    step c rest = .ok (some ⟨String.ofList (operator c rest).1, operatorKind (operator c rest).1⟩,
      (operator c rest).2) := by
  simp only [step, hc.not_blank, hcomment, hc.not_quote, hc.not_digit, hword, Bool.false_eq_true,
    if_false]

/-! ### What a step reads -/

variable {gap text behind : List Char} {kind : TokenKind} {fault : LexFault}

/-- A separator is taken in one step, without a token. -/
theorem step_of_separator (h : Separator gap behind) :
    ∃ c tail, gap = c :: tail ∧ step c (tail ++ behind) = .ok (none, behind) := by
  cases h with
  | @blank c _ hc => exact ⟨c, [], rfl, step_blank hc⟩
  -- A line comment takes its line break with it.
  | @line body _ hbody =>
    refine ⟨'/', '/' :: body ++ ['\n'], rfl, ?_⟩
    rw [List.append_assoc, List.cons_append, step_comment rfl, afterComment, if_pos rfl,
      List.singleton_append, afterLine_append hbody]
    rfl
  | @lastLine body hbody =>
    refine ⟨'/', '/' :: body, rfl, ?_⟩
    rw [List.append_nil, step_comment rfl, afterComment, if_pos rfl, afterLine_eq_nil hbody]
    rfl
  | @block body _ hbody =>
    refine ⟨'/', '*' :: body ++ ['*', '/'], rfl, ?_⟩
    rw [List.append_assoc, List.cons_append, step_comment rfl, afterComment, if_neg (by decide),
      List.cons_append, List.singleton_append, afterBlock_append hbody]
    rfl

/-- What is not closed is a fault in one step. -/
theorem step_of_unclosed (h : Unclosed fault text) :
    ∃ c tail, text = c :: tail ∧ step c tail = .error fault := by
  cases h with
  | @literal quote rest hquote hopen =>
    have hnone := literalBody_eq_none (ne_backslash_of_isQuote hquote) hopen
    exact ⟨quote, rest, rfl, step_openLiteral hquote hnone⟩
  | @comment body hbody =>
    refine ⟨'/', '*' :: body, rfl, ?_⟩
    rw [step_comment rfl, afterComment, if_neg (by decide), afterBlock_eq_none hbody]
    rfl

/-- A run of characters of a class ends where the class does. -/
theorem takeWhile_run {p : Char → Bool} {run behind : List Char} (hrun : ∀ d ∈ run, p d = true)
    (hbehind : ∀ d ∈ behind.head?, p d = false) :
    (run ++ behind).takeWhile p = run ∧ (run ++ behind).dropWhile p = behind := by
  rw [List.takeWhile_append_of_pos hrun, List.dropWhile_append_of_pos hrun]
  cases behind with
  | nil => simp
  | cons d behind => simp [hbehind d rfl]

/-- A sign that makes no pair with what follows is an operator by itself. -/
theorem operator_sign (h : ∀ d ∈ behind.head?, (c, d) ∉ pairs) :
    operator c behind = ([c], behind) := by
  cases behind with
  | nil => rfl
  | cons d behind => simp only [operator, if_neg (h d rfl)]

/-- A pair that makes no triple with what follows is an operator. -/
theorem operator_pair (hpair : (c, d) ∈ pairs) (h : ∀ e ∈ behind.head?, (c, d, e) ∉ triples) :
    operator c (d :: behind) = ([c, d], behind) := by
  cases behind with
  | nil => simp only [operator, if_pos hpair]
  | cons e behind => simp only [operator, if_pos hpair, if_neg (h e rfl)]

/-- A triple is an operator, whatever follows. -/
theorem operator_triple {e : Char} (h : (c, d, e) ∈ triples) :
    operator c (d :: e :: behind) = ([c, d, e], behind) := by
  have hpair : ∀ t ∈ triples, (t.1, t.2.1) ∈ pairs := by decide
  simp only [operator, if_pos (hpair _ h), if_pos h]

/-- A lexeme is taken in one step, as one token. -/
theorem step_of_lexeme (h : Lexeme text kind behind) :
    ∃ c tail, text = c :: tail ∧
      step c (tail ++ behind) = .ok (some ⟨String.ofList text, kind⟩, behind) := by
  cases h with
  | @literal quote body _ hquote hbody hopen =>
    -- The body of a literal has no quote that is not escaped, so the first one closes it.
    have hsome := literalBody_append (ne_backslash_of_isQuote hquote) hbody hopen behind
    refine ⟨quote, body ++ [quote], rfl, ?_⟩
    rw [List.append_assoc, List.singleton_append, step_literal hquote hsome]
    rfl
  | @number c digits _ hc hdigits hbehind =>
    -- Digits and words are runs, which end where `behind` begins.
    obtain ⟨htake, hdrop⟩ := takeWhile_run hdigits hbehind
    refine ⟨c, digits, rfl, ?_⟩
    rw [step_number hc, htake, hdrop]
  | @word c tail _ hc htail hbehind =>
    obtain ⟨htake, hdrop⟩ := takeWhile_run htail hbehind
    refine ⟨c, tail, rfl, ?_⟩
    rw [step_word (startsWord_append hc), htake, hdrop]
  | @sign c _ hc hbehind =>
    obtain ⟨hcomment, hword, hpair⟩ := hc.alone hbehind
    refine ⟨c, [], rfl, ?_⟩
    rw [List.nil_append, step_operator hc hcomment hword, operator_sign hpair]
  | @pair c d _ hpair hbehind =>
    obtain ⟨hcomment, hword⟩ := not_joins_of_mem_pairs hpair
    refine ⟨c, [d], rfl, ?_⟩
    rw [List.singleton_append, step_operator (isSign_of_mem_pairs hpair) hcomment hword,
      operator_pair hpair hbehind]
  | @triple c d e _ htriple =>
    -- A triple begins with a pair, so the tables need to be read for pairs only.
    have hpair : ∀ t ∈ triples, (t.1, t.2.1) ∈ pairs := by decide
    obtain ⟨hcomment, hword⟩ := not_joins_of_mem_pairs (hpair _ htriple)
    refine ⟨c, [d, e], rfl, ?_⟩
    show step c (d :: e :: behind) = _
    rw [step_operator (isSign_of_mem_pairs (hpair _ htriple)) hcomment hword,
      operator_triple htriple]

/-! ### What the lexer reads -/

/-- The tokens of a text are that of its first step and those of the rest. -/
theorem tokens_of_step {token? : Option Token} {rest' : List Char}
    (h : step c rest = .ok (token?, rest')) :
    tokens (c :: rest) = (tokens rest').map fun found => token?.toList ++ found := by
  rw [tokens]
  split
  next fault hstep =>
    rw [h] at hstep
    cases hstep
  next hstep =>
    rw [h] at hstep
    cases hstep
    cases tokens rest' <;> rfl

/-- Separators leave no tokens. -/
theorem tokens_separator (h : Separator gap behind) : tokens (gap ++ behind) = tokens behind := by
  obtain ⟨c, tail, rfl, hstep⟩ := step_of_separator h
  rw [List.cons_append, tokens_of_step hstep]
  cases tokens behind <;> rfl

/-- A token at the beginning is the first one. -/
theorem tokens_lexeme (h : Lexeme text kind behind) :
    tokens (text ++ behind)
      = (tokens behind).map fun found => ⟨String.ofList text, kind⟩ :: found := by
  obtain ⟨c, tail, rfl, hstep⟩ := step_of_lexeme h
  rw [List.cons_append, tokens_of_step hstep]
  rfl

/-- What does not end is an error. -/
theorem tokens_unclosed (h : Unclosed fault text) : tokens text = .error fault := by
  obtain ⟨c, tail, rfl, hstep⟩ := step_of_unclosed h
  rw [tokens]
  split
  next hstep' =>
    rw [hstep] at hstep'
    cases hstep'
    rfl
  next hstep' =>
    rw [hstep] at hstep'
    cases hstep'

/-- Induction along the pieces that the lexer reads. -/
theorem lexing_induction {motive : List Char → Prop} (nil : motive [])
    (separator : ∀ gap behind, Separator gap behind → motive behind → motive (gap ++ behind))
    (lexeme : ∀ text kind behind, Lexeme text kind behind → motive behind → motive (text ++ behind))
    (unclosed : ∀ fault text, Unclosed fault text → motive text) (text : List Char) :
    motive text := by
  -- Every case takes at least one character, so what is behind it is shorter.
  have ih : ∀ behind, behind.length < text.length → motive behind := fun behind _ =>
    lexing_induction nil separator lexeme unclosed behind
  cases text with
  | nil => exact nil
  | cons c rest =>
    have hbegins := begins_cons c rest
    generalize c :: rest = text at hbegins ih
    cases hbegins with
    | @separator gap behind h =>
      refine separator gap behind h (ih behind ?_)
      obtain ⟨d, tail, rfl, -⟩ := step_of_separator h
      rw [List.length_append, List.length_cons]
      omega
    | @lexeme text behind kind h =>
      refine lexeme text kind behind h (ih behind ?_)
      obtain ⟨d, tail, rfl, -⟩ := step_of_lexeme h
      rw [List.length_append, List.length_cons]
      omega
    | unclosed h => exact unclosed _ _ h
termination_by text.length

end NaturalNames.Lexer

namespace NaturalNames

/-- The tokens of a code text are those of its characters. -/
theorem Tokenizer.code_eq_ok_iff {text : String} {found : List Token} :
    Tokenizer.code.tokenize text = .ok found ↔ Lexer.tokens text.toList = .ok found := by
  show (Lexer.tokens text.toList).mapError Error.tokenize = .ok found ↔ _
  cases Lexer.tokens text.toList <;> simp [Except.mapError]

/-- The texts of the tokens are there if the tokens are. -/
theorem Tokenizer.texts_eq_ok {tokenizer : Tokenizer} {text : String} {found : List Token}
    (h : tokenizer.tokenize text = .ok found) :
    tokenizer.texts text = .ok (found.map Token.text) := by
  rw [Tokenizer.texts, h]
  rfl

end NaturalNames
