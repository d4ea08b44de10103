import NaturalNames.Text.Class
import NaturalNames.Token

/-!
# `NaturalNames.Token.Lexer`: a lexer for languages that look like C

One step looks at the first character of the text and at one more.

* White space and comments separate tokens and are dropped.
* A literal runs from a quote to the next one of the same kind; a backslash protects the
  character behind it. Quotes are kept.
* A number starts with a digit and goes on with ASCII letters, digits, `.` and `_`.
* A word starts with a letter, `_` or `$`, or with a `%` that stands in front of a letter, number
  or `_`. Inside words `%` always counts, so wrapped names such as `var%count%` are one token.
* Anything else is an operator, of two or three characters where the lists below have it.

A text that ends inside a literal or a block comment has no tokens.
-/

set_option autoImplicit false

namespace NaturalNames.Lexer

open NaturalNames.Text

/-! ### Comments and literals -/

/-- What follows the line that the text is on. -/
def afterLine : List Char → List Char
  | [] => []
  | c :: rest => if c = '\n' then rest else afterLine rest

/-- What follows the first `*/`. -/
def afterBlock : List Char → Option (List Char)
  | [] => none
  | '*' :: '/' :: rest => some rest
  | _ :: rest => afterBlock rest

/-- Given what follows the first slash of a comment, what follows the comment. -/
def afterComment : List Char → Except LexFault (List Char)
  | [] => .error .openComment
  | c :: rest =>
    if c = '/' then .ok (afterLine rest)
    else
      match afterBlock rest with
      | some rest' => .ok rest'
      | none => .error .openComment

/-- A comment starts with two slashes or with a slash and a star. -/
def startsComment : List Char → Bool
  | '/' :: '/' :: _ => true
  | '/' :: '*' :: _ => true
  | _ => false

/-- The characters that open and close literals. -/
def isQuote (c : Char) : Bool :=
  c = '\x22' || c = '\x27' || c = '\x60'

/-- Given what follows the opening quote, the literal up to its closing quote and the rest. -/
def literalBody (quote : Char) : List Char → Option (List Char × List Char)
  | [] => none
  | c :: rest =>
    if c = '\\' then
      match rest with
      | [] => none
      | d :: rest' => (literalBody quote rest').map fun cut => (c :: d :: cut.1, cut.2)
    else if c = quote then some ([c], rest)
    else (literalBody quote rest).map fun cut => (c :: cut.1, cut.2)

/-! ### Numbers and words -/

/-- The characters that a number goes on with. -/
def isNumberChar (c : Char) : Bool :=
  c.isAlphanum || c = '.' || c = '_'

/-- The characters that a word goes on with. -/
def isWordChar (c : Char) : Bool :=
  isAlphanumeric c || c = '_' || c = '$' || c = '%'

/-- Whether a word starts with `c`, when `rest` follows it. -/
def startsWord (c : Char) (rest : List Char) : Bool :=
  isAlphabetic c || c = '_' || c = '$' ||
    (c = '%' && rest.head?.any fun d => isAlphanumeric d || d = '_')

/-- The words that name no thing. A word is in the list if some language of the family reserves
it. -/
def keywords : List String := [
  "if", "else", "for", "while", "do", "loop", "break", "continue",
  "return", "switch", "case", "default", "match",
  "try", "catch", "finally", "throw", "throws",
  "fn", "function", "let", "var", "val", "const", "static",
  "class", "struct", "enum", "trait", "interface", "impl",
  "extends", "implements", "abstract", "final", "override", "virtual",
  "pub", "private", "protected", "public",
  "use", "mod", "import", "package", "namespace",
  "mut", "ref", "unsafe", "extern", "async", "await",
  "true", "false", "null", "this", "self", "new", "super",
  "void", "int", "long", "short", "byte", "char", "float",
  "double", "boolean", "bool", "instanceof", "typeof",
  "synchronized", "volatile", "transient", "native", "sizeof"]

/-- A word is a keyword or an identifier. -/
def wordKind (word : String) : TokenKind :=
  if word ∈ keywords then .keyword else .identifier

/-! ### Operators -/

/-- The operators of two characters. -/
def pairs : List (Char × Char) := [
  ('=', '='), ('!', '='), ('>', '='), ('<', '='), ('&', '&'), ('|', '|'),
  ('-', '>'), ('=', '>'), (':', ':'), ('+', '='), ('-', '='), ('*', '='), ('/', '='),
  ('+', '+'), ('-', '-'), ('<', '<'), ('>', '>')]

/-- The operators of three characters. Each goes on from one of two. -/
def triples : List (Char × Char × Char) := [
  ('=', '=', '='), ('!', '=', '='), ('>', '>', '>'), ('<', '<', '='), ('>', '>', '=')]

/-- The longest operator that `c` starts, when `rest` follows it. -/
def operator (c : Char) : List Char → List Char × List Char
  | [] => ([c], [])
  | d :: rest =>
    if (c, d) ∈ pairs then
      match rest with
      | [] => ([c, d], [])
      | e :: rest' => if (c, d, e) ∈ triples then ([c, d, e], rest') else ([c, d], rest)
    else ([c], d :: rest)

/-- The characters that group or separate. -/
def isPunctuation (c : Char) : Bool :=
  c ∈ ['(', ')', '{', '}', '[', ']', ';', ',']

/-- An operator of punctuation alone is no operator in the narrower sense. -/
def operatorKind (op : List Char) : TokenKind :=
  if op.all isPunctuation then .other else .operator

/-! ### The lexer -/

/-- The token that a text starts with, or nothing where it starts with white space or a comment,
and the rest of the text. -/
def step (c : Char) (rest : List Char) : Except LexFault (Option Token × List Char) :=
  if isBlank c then .ok (none, rest)
  else if startsComment (c :: rest) then
    (afterComment rest).map fun rest' => (none, rest')
  else if isQuote c then
    match literalBody c rest with
    | some (body, rest') => .ok (some ⟨String.ofList (c :: body), .literal⟩, rest')
    | none => .error (.openLiteral c)
  else if c.isDigit then
    .ok (some ⟨String.ofList (c :: rest.takeWhile isNumberChar), .literal⟩,
      rest.dropWhile isNumberChar)
  else if startsWord c rest then
    let word := String.ofList (c :: rest.takeWhile isWordChar)
    .ok (some ⟨word, wordKind word⟩, rest.dropWhile isWordChar)
  else
    let cut := operator c rest
    .ok (some ⟨String.ofList cut.1, operatorKind cut.1⟩, cut.2)

/-! ### Every step leaves no more than what followed its first character -/

/-- What is behind a line is no longer than the text. -/
theorem length_afterLine_le (text : List Char) : (afterLine text).length ≤ text.length := by
  induction text with
  | nil => simp [afterLine]
  | cons c rest ih =>
    rw [afterLine, List.length_cons]
    split <;> omega

/-- What is behind a block comment is no longer than the text. -/
theorem length_of_afterBlock {text rest : List Char} (h : afterBlock text = some rest) :
    rest.length ≤ text.length := by
  induction text using afterBlock.induct with
  | case1 => simp [afterBlock] at h
  | case2 r => simp [afterBlock] at h; subst h; simp; omega
  | case3 c r hne ih =>
    rw [afterBlock] at h
    · have := ih h; simp; omega
    · exact hne

/-- What is behind a comment is no longer than the text. -/
theorem length_of_afterComment {text rest : List Char} (h : afterComment text = .ok rest) :
    rest.length ≤ text.length := by
  cases text with
  | nil => simp [afterComment] at h
  | cons c r =>
    rw [afterComment] at h
    split at h
    · injection h with h
      subst h
      have := length_afterLine_le r
      simp; omega
    · split at h
      · rename_i r' hr
        injection h with h
        subst h
        have := length_of_afterBlock hr
        simp; omega
      · cases h

/-- What is behind a literal is no longer than the text. -/
theorem length_of_literalBody {quote : Char} {text : List Char} {cut : List Char × List Char}
    (h : literalBody quote text = some cut) : cut.2.length ≤ text.length := by
  fun_induction literalBody quote text generalizing cut with
  | case1 => simp at h
  | case2 => simp at h
  | case3 d rest ih =>
    obtain ⟨cut', hcut, rfl⟩ := Option.map_eq_some_iff.1 h
    have := ih hcut
    simp; omega
  | case4 => simp at h; subst h; simp
  | case5 c rest _ _ ih =>
    obtain ⟨cut', hcut, rfl⟩ := Option.map_eq_some_iff.1 h
    have := ih hcut
    simp; omega

/-- What is behind an operator is no longer than the text. -/
theorem length_operator_le (c : Char) (rest : List Char) :
    (operator c rest).2.length ≤ rest.length := by
  fun_cases operator c rest <;> simp only [List.length_cons, List.length_nil]
  all_goals omega

/-- A step takes its first character at least, so that the rest gets shorter. -/
theorem length_of_step {c : Char} {rest : List Char} {cut : Option Token × List Char}
    (h : step c rest = .ok cut) : cut.2.length ≤ rest.length := by
  unfold step at h
  split at h
  · injection h with h; subst h; exact Nat.le_refl _
  split at h
  · cases hc : afterComment rest with
    | error e => rw [hc] at h; cases h
    | ok rest' => rw [hc] at h; cases h; exact length_of_afterComment hc
  split at h
  · split at h
    · rename_i hl
      injection h with h
      subst h
      exact length_of_literalBody hl
    · cases h
  split at h
  · injection h with h; subst h; exact (List.dropWhile_suffix isNumberChar).length_le
  split at h
  · injection h with h; subst h; exact (List.dropWhile_suffix isWordChar).length_le
  · injection h with h; subst h; exact length_operator_le c rest

/-- The tokens of a text, in order. -/
def tokens : List Char → Except LexFault (List Token)
  | [] => .ok []
  | c :: rest =>
    match _h : step c rest with
    | .error fault => .error fault
    | .ok (token?, rest') =>
      match tokens rest' with
      | .error fault => .error fault
      | .ok found => .ok (token?.toList ++ found)
termination_by text => text.length
decreasing_by
  have := length_of_step _h
  simp only [List.length_cons] at *
  omega

end NaturalNames.Lexer

namespace NaturalNames

/-- The tokenizer for languages that look like C. -/
def Tokenizer.code : Tokenizer where
  tokenize text := (Lexer.tokens text.toList).mapError .tokenize

end NaturalNames
