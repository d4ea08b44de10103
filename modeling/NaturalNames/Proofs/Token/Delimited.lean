import NaturalNames.Token.Lexer

/-!
# `NaturalNames.Proofs.Token.Delimited`: where literals and comments end

A literal ends at the first quote of its kind that no backslash protects, a line comment at the end
of the line, a block comment at the first `*/` behind its opening. The lexer finds each of these
ends with a loop of its own. Here each loop is compared with what it looks for: where the text is
given as the part before the end and the part behind it, the loop stops exactly there
(`literalBody_append`, `afterLine_append`, `afterBlock_append`), and where there is no end it finds
none.

Which characters a backslash protects is settled from the left, as in `"\\\\"`, where the second one
is protected and so protects nothing. `Escapes` says that a text can be cut into plain characters
and protected ones.
-/

set_option autoImplicit false

namespace NaturalNames.Lexer

variable {c quote : Char} {body rest text : List Char}

/-! ### Literals -/

/-- Every backslash of the text has a character behind it, the one that it protects. -/
inductive Escapes : List Char → Prop
  | nil : Escapes []
  | plain {c : Char} {rest : List Char} (hc : c ≠ '\\') (hrest : Escapes rest) : Escapes (c :: rest)
  | pair {d : Char} {rest : List Char} (hrest : Escapes rest) : Escapes ('\\' :: d :: rest)

/-- Somewhere in the text stands `quote`, and no backslash protects it. -/
def Unescaped (quote : Char) (text : List Char) : Prop :=
  ∃ front behind, Escapes front ∧ text = front ++ quote :: behind

/-- In the empty text no quote stands. -/
theorem not_unescaped_nil : ¬ Unescaped quote [] := by
  rintro ⟨front, behind, -, h⟩
  simp at h

/-- A character that is not a backslash protects nothing behind it. -/
theorem unescaped_cons_iff (hc : c ≠ '\\') :
    Unescaped quote (c :: rest) ↔ c = quote ∨ Unescaped quote rest := by
  constructor
  · rintro ⟨front, behind, hfront, h⟩
    cases hfront with
    | nil => exact .inl (List.cons.inj h).1
    | plain _ hfront => exact .inr ⟨_, behind, hfront, (List.cons.inj h).2⟩
    | pair _ => exact absurd (List.cons.inj h).1 hc
  · rintro (rfl | ⟨front, behind, hfront, rfl⟩)
    · exact ⟨[], rest, .nil, rfl⟩
    · exact ⟨c :: front, behind, .plain hc hfront, rfl⟩

section

variable (hquote : quote ≠ '\\')

include hquote

/-- What a backslash protects does not count. -/
theorem unescaped_pair_iff {d : Char} :
    Unescaped quote ('\\' :: d :: rest) ↔ Unescaped quote rest := by
  constructor
  · rintro ⟨front, behind, hfront, h⟩
    cases hfront with
    | nil => exact absurd (List.cons.inj h).1.symm hquote
    | plain hc _ => exact absurd (List.cons.inj h).1.symm hc
    | pair hfront => exact ⟨_, behind, hfront, (List.cons.inj (List.cons.inj h).2).2⟩
  · rintro ⟨front, behind, hfront, rfl⟩
    exact ⟨_, behind, .pair hfront, rfl⟩

/-- A text with a quote that nothing protects has a first one. -/
theorem exists_closing (h : Unescaped quote text) :
    ∃ body rest, text = body ++ quote :: rest ∧ Escapes body ∧ ¬ Unescaped quote body := by
  obtain ⟨front, behind, hfront, rfl⟩ := h
  -- Induction on the escapes before some closing quote; an earlier plain quote closes first.
  induction hfront with
  | nil => exact ⟨[], behind, rfl, .nil, not_unescaped_nil⟩
  | @plain c front hc _ ih =>
    by_cases hcq : c = quote
    · subst hcq
      exact ⟨[], front ++ c :: behind, rfl, .nil, not_unescaped_nil⟩
    · obtain ⟨body, rest, htext, hbody, hopen⟩ := ih
      refine ⟨c :: body, rest, by simp [htext], .plain hc hbody, ?_⟩
      rw [unescaped_cons_iff hc]
      exact not_or_intro hcq hopen
  | @pair d front _ ih =>
    obtain ⟨body, rest, htext, hbody, hopen⟩ := ih
    refine ⟨'\\' :: d :: body, rest, by simp [htext], .pair hbody, ?_⟩
    rwa [unescaped_pair_iff hquote]

omit hquote in
/-- The body of a literal is read character by character, up to the quote. -/
theorem literalBody_plain (hc : c ≠ '\\') :
    literalBody quote (c :: rest) = if c = quote then some ([c], rest)
      else (literalBody quote rest).map fun cut => (c :: cut.1, cut.2) := by
  cases rest <;> simp only [literalBody, if_neg hc]

/-- A body in which no quote stands unprotected is read up to the quote behind it. -/
theorem literalBody_append (hbody : Escapes body) (hopen : ¬ Unescaped quote body)
    (rest : List Char) :
    literalBody quote (body ++ quote :: rest) = some (body ++ [quote], rest) := by
  induction hbody with
  | nil => rw [List.nil_append, literalBody_plain hquote, if_pos rfl, List.nil_append]
  | @plain c body hc _ ih =>
    rw [unescaped_cons_iff hc, not_or] at hopen
    rw [List.cons_append, literalBody_plain hc, if_neg hopen.1, ih hopen.2]
    rfl
  | @pair d body _ ih =>
    rw [unescaped_pair_iff hquote] at hopen
    rw [List.cons_append, List.cons_append, literalBody, if_pos rfl]
    simp only [ih hopen]
    rfl

/-- Without an unprotected quote a literal is not closed. -/
theorem literalBody_eq_none (h : ¬ Unescaped quote text) : literalBody quote text = none := by
  fun_induction literalBody quote text with
  | case1 => rfl
  | case2 => rfl
  -- An escaped pair: whatever the second character is, it closes nothing.
  | case3 d rest ih =>
    rw [unescaped_pair_iff hquote] at h
    rw [ih h]
    rfl
  -- The quote itself, which would be the unescaped one that is ruled out.
  | case4 rest hc =>
    rw [unescaped_cons_iff hc] at h
    exact absurd (.inl rfl) h
  | case5 c rest hc hcq ih =>
    rw [unescaped_cons_iff hc, not_or] at h
    rw [ih h.2]
    rfl

end

/-! ### Parts of literals -/

/-- Texts in which every backslash has its character can be put together. -/
theorem Escapes.append {front behind : List Char} (hfront : Escapes front)
    (hbehind : Escapes behind) : Escapes (front ++ behind) := by
  induction hfront with
  | nil => exact hbehind
  | plain hc _ ih => exact .plain hc ih
  | pair _ ih => exact .pair ih

/-- A text can be cut behind a character that is not a backslash, protected or not. -/
theorem Escapes.cut {front behind : List Char} (hc : c ≠ '\\')
    (h : Escapes (front ++ c :: behind)) : Escapes (front ++ [c]) ∧ Escapes behind := by
  generalize htext : front ++ c :: behind = text at h
  induction h generalizing front with
  | nil => simp at htext
  | @plain d rest hd hrest ih =>
    cases front with
    | nil =>
      cases htext
      exact ⟨.plain hd .nil, hrest⟩
    | cons e front =>
      obtain ⟨rfl, htail⟩ := List.cons.inj htext
      exact ⟨.plain hd (ih htail).1, (ih htail).2⟩
  | @pair d rest hrest ih =>
    -- An escaped pair: `c` is no backslash, so the cut is not between the two or leaves them in
    -- front.
    match front with
    | [] => exact absurd (List.cons.inj htext).1 hc
    | [e] =>
      cases htext
      exact ⟨.pair .nil, hrest⟩
    | e :: e' :: front =>
      simp only [List.cons_append, List.cons.injEq] at htext
      obtain ⟨rfl, rfl, htail⟩ := htext
      exact ⟨.pair (ih htail).1, (ih htail).2⟩

/-- An unprotected quote of two texts is one of the first or of the second. -/
theorem unescaped_append_iff (hquote : quote ≠ '\\') {front behind : List Char}
    (hfront : Escapes front) :
    Unescaped quote (front ++ behind) ↔ Unescaped quote front ∨ Unescaped quote behind := by
  induction hfront with
  | nil => simp [not_unescaped_nil]
  | plain hc _ ih =>
    rw [List.cons_append, unescaped_cons_iff hc, ih, unescaped_cons_iff hc, or_assoc]
  | pair _ ih =>
    rw [List.cons_append, List.cons_append, unescaped_pair_iff hquote, ih,
      unescaped_pair_iff hquote]

/-- What stands between the quotes of a literal: a quote in there is protected, and the closing one
is not. -/
structure Closed (quote : Char) (body : List Char) : Prop where
  escapes : Escapes body
  protects : ¬ Unescaped quote body

namespace Closed

/-- Characters that are neither quotes nor backslashes. -/
theorem of_plain (h : ∀ c ∈ body, c ≠ '\\' ∧ c ≠ quote) : Closed quote body := by
  induction body with
  | nil => exact ⟨.nil, not_unescaped_nil⟩
  | cons c body ih =>
    rw [List.forall_mem_cons] at h
    have hbody := ih h.2
    refine ⟨.plain h.1.1 hbody.escapes, ?_⟩
    rw [unescaped_cons_iff h.1.1]
    exact not_or_intro h.1.2 hbody.protects

/-- Two bodies of literals together are one. -/
theorem append (hquote : quote ≠ '\\') {front behind : List Char} (hfront : Closed quote front)
    (hbehind : Closed quote behind) : Closed quote (front ++ behind) := by
  refine ⟨hfront.escapes.append hbehind.escapes, ?_⟩
  rw [unescaped_append_iff hquote hfront.escapes]
  exact not_or_intro hfront.protects hbehind.protects

/-- A body may be cut behind a character that is not a backslash. -/
theorem cut (hquote : quote ≠ '\\') (hc : c ≠ '\\') {front behind : List Char}
    (h : Closed quote (front ++ c :: behind)) :
    Closed quote (front ++ [c]) ∧ Closed quote behind := by
  obtain ⟨hfront, hbehind⟩ := h.escapes.cut hc
  have hprotects := h.protects
  rw [List.append_cons, unescaped_append_iff hquote hfront, not_or] at hprotects
  exact ⟨⟨hfront, hprotects.1⟩, hbehind, hprotects.2⟩

end Closed

/-! ### Comments -/

/-- A comment of one line ends at the first line break. -/
theorem afterLine_append (h : '\n' ∉ body) (rest : List Char) :
    afterLine (body ++ '\n' :: rest) = rest := by
  induction body with
  | nil => rw [List.nil_append, afterLine, if_pos rfl]
  | cons c body ih =>
    rw [List.mem_cons, not_or] at h
    rw [List.cons_append, afterLine, if_neg (Ne.symm h.1), ih h.2]

/-- Without a line break a comment of one line ends with the text. -/
theorem afterLine_eq_nil (h : '\n' ∉ body) : afterLine body = [] := by
  induction body with
  | nil => rfl
  | cons c body ih =>
    rw [List.mem_cons, not_or] at h
    rw [afterLine, if_neg (Ne.symm h.1), ih h.2]

/-- A block comment ends at the first star with a slash behind. -/
theorem afterBlock_append (h : ¬ ['*', '/'] <:+: body) (rest : List Char) :
    afterBlock (body ++ '*' :: '/' :: rest) = some rest := by
  induction body with
  | nil => rfl
  | cons c body ih =>
    have hstart : ∀ rest', c = '*' → body ++ '*' :: '/' :: rest = '/' :: rest' → False := by
      rintro rest' rfl hrest
      cases body with
      | nil => simp at hrest
      | cons d body =>
        obtain rfl : d = '/' := (List.cons.inj hrest).1
        exact h ⟨[], body, rfl⟩
    rw [List.cons_append, afterBlock.eq_3 _ _ hstart, ih fun hbody => h (List.infix_cons hbody)]

/-- Without a star and a slash in a row a block comment is not closed. -/
theorem afterBlock_eq_none (h : ¬ ['*', '/'] <:+: text) : afterBlock text = none := by
  fun_induction afterBlock text with
  | case1 => rfl
  | case2 rest => exact absurd ⟨[], rest, rfl⟩ h
  | case3 c rest hstart ih => exact ih fun hrest => h (List.infix_cons hrest)

end NaturalNames.Lexer
