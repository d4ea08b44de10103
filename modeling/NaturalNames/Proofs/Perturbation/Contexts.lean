import NaturalNames.Perturbation
import NaturalNames.Proofs.Renamer.Masking
import NaturalNames.Proofs.Token.Renaming

/-!
# `NaturalNames.Proofs.Perturbation.Contexts`: the junk name in the contexts of the name it replaces

A junk name is put in place of a name token by token, and the snippet is written anew, read again
and masked. What comes of it is simple as long as the junk name is new to the snippet: a token
that was given the junk name and is masked then has the wildcard where the name was replaced
(`maskToken_renameToken`).

These are the contexts of the name itself if masking looks for the name in the same places. It does
not always: masking replaces the name wherever it stands in a token, and renaming only between two
`%`; and of two names that share a `%` renaming gets the first one alone. `perturbed_contexts` asks
that neither happens, and `perturbed_contexts_shared` is a snippet in which the name is still there
after it was replaced.
-/

set_option autoImplicit false

namespace NaturalNames

open NaturalNames.Text
open NaturalNames.Lexer (IsPlain)

variable {name junk token : String}

/-! ### Single tokens -/

/-- An occurrence is the name as a token, or the name between percent signs in one. -/
theorem isOccurrence_iff :
    isOccurrence name token = true ↔ token = name ∨ wrap name.toList <:+: token.toList := by
  rw [isOccurrence, Bool.or_eq_true, decide_eq_true_eq, Text.occurs_iff, toList_wrap]

/-- A name that is nowhere in a token is no occurrence in it. -/
theorem isOccurrence_of_fresh (h : Text.occurs name token = false) :
    isOccurrence name token = false := by
  rw [← Bool.not_eq_true, Text.occurs_iff] at h
  rw [← Bool.not_eq_true, isOccurrence_iff]
  rintro (rfl | hstands)
  · exact h List.infix_rfl
  · exact h (infix_of_infix_wrap hstands)

/-- A token that is no occurrence is not renamed. -/
theorem renameToken_of_not_isOccurrence (h : isOccurrence name token = false) (new : String) :
    renameToken name new token = token := by
  rw [← Bool.not_eq_true, isOccurrence_iff, not_or, ← splitFirst_eq_none_iff] at h
  rw [← String.toList_inj, toList_renameToken, if_neg h.1,
    replaceAll_of_uncut (wrap_ne_nil _) _ h.2]

/-- The new name has the occurrences that the old one had. -/
theorem isOccurrence_renameToken (hfresh : Text.occurs junk token = false) :
    isOccurrence junk (renameToken name junk token) = isOccurrence name token := by
  cases hoccurrence : isOccurrence name token with
  | false =>
    rw [renameToken_of_not_isOccurrence hoccurrence]
    exact isOccurrence_of_fresh hfresh
  | true =>
    rw [isOccurrence_iff, ← String.toList_inj, toList_renameToken]
    rw [isOccurrence_iff] at hoccurrence
    split
    next => exact .inl rfl
    next hne => exact .inr (infix_replaceAll _ (hoccurrence.resolve_left hne))

/-- **To mask the junk name is to rename to the wildcard.** -/
theorem maskToken_renameToken (hjunk : IsPlain junk.toList)
    (hfresh : Text.occurs junk token = false) :
    maskToken junk (renameToken name junk token) = renameToken name wildcard token := by
  have hne : junk.toList ≠ [] := hjunk.isWord.ne_nil
  rw [maskToken, isOccurrence_renameToken hfresh]
  -- Both sides keep a token that is no occurrence of the name, so only occurrences are left.
  cases hoccurrence : isOccurrence name token with
  | false =>
    rw [if_neg Bool.false_ne_true, renameToken_of_not_isOccurrence hoccurrence,
      renameToken_of_not_isOccurrence hoccurrence]
  | true =>
    rw [if_pos rfl, ← String.toList_inj, Text.replace, String.toList_ofList, toList_renameToken,
      toList_renameToken]
    split
    next => exact replaceAll_whole hne _
    -- No copy of the new name stood in the token before, so the copies masked are those put in.
    next =>
      rw [← Bool.not_eq_true, Text.occurs_iff] at hfresh
      exact replaceAll_fresh hjunk.percent_notMem hne hfresh

/-- Masking the name is renaming to the wildcard, if the name is nowhere without its `%` and shares
none. -/
theorem renameToken_wildcard (hname : name.toList ≠ [])
    (h : isOccurrence name token = true → token ≠ name →
      OnlyWrapped name.toList token.toList ∧ Apart name.toList token.toList) :
    renameToken name wildcard token = maskToken name token := by
  rw [maskToken]
  cases hoccurrence : isOccurrence name token with
  | false => rw [if_neg Bool.false_ne_true, renameToken_of_not_isOccurrence hoccurrence]
  | true =>
    rw [if_pos rfl, ← String.toList_inj, toList_renameToken, Text.replace, String.toList_ofList]
    split
    -- A token that is the name: both sides give the wildcard.
    next htoken =>
      rw [htoken]
      exact (replaceAll_whole hname _).symm
    -- A wrapped name: copies that do not touch are the same whether or not the `%` are read too.
    next htoken =>
      obtain ⟨hwrapped, hapart⟩ := h hoccurrence htoken
      exact (replaceAll_eq_wrap hname _ hwrapped hapart).symm

/-- Where no two names share a `%`, no name is left. -/
theorem isOccurrence_renameToken_self (hjunk : IsPlain junk.toList)
    (hname : Text.occurs junk name = false)
    (h : token ≠ name → Apart name.toList token.toList) :
    isOccurrence name (renameToken name junk token) = false := by
  rw [← Bool.not_eq_true, Text.occurs_iff] at hname
  rw [← Bool.not_eq_true, isOccurrence_iff, ← String.toList_inj, toList_renameToken, not_or]
  split
  next =>
    refine ⟨fun heq => hname (heq ▸ List.infix_rfl), fun hstands => ?_⟩
    exact hjunk.percent_notMem (hstands.subset List.mem_cons_self)
  next htoken =>
    refine ⟨fun heq => ?_, not_infix_replaceAll_wrap hjunk.percent_notMem hname (h htoken)⟩
    -- The token is the name after all, or it has the junk name in it.
    by_cases hstands : wrap name.toList <:+: token.toList
    · have hnew := infix_replaceAll (wrap junk.toList) hstands
      rw [heq] at hnew
      exact hname (infix_of_infix_wrap hnew)
    · rw [replaceAll_of_uncut (wrap_ne_nil _) _ (splitFirst_eq_none_iff.2 hstands)] at heq
      exact htoken (String.toList_inj.1 heq)

/-! ### Lists of tokens -/

section

variable {tokens : List String} (hfresh : ∀ token ∈ tokens, Text.occurs junk token = false)

include hfresh

/-- The junk name occurs where the name was. -/
theorem occurrencePositions_map_renameToken :
    occurrencePositions junk (tokens.map (renameToken name junk))
      = occurrencePositions name tokens := by
  rw [occurrencePositions, occurrencePositions, List.length_map]
  congr 1
  refine List.filter_congr fun i _ => ?_
  rw [List.getElem?_map, Option.any_map]
  cases hget : tokens[i]? with
  | none => rfl
  | some token => exact isOccurrence_renameToken (hfresh token (List.mem_of_getElem? hget))

/-- The junk name has the contexts of the places where it was put. -/
theorem nameContexts_map_renameToken (order : Nat) (hjunk : IsPlain junk.toList) :
    nameContexts order junk (tokens.map (renameToken name junk))
      = contextsAt order (tokens.map (renameToken name wildcard))
          (occurrencePositions name tokens) := by
  have hmasked : maskOccurrences junk (tokens.map (renameToken name junk))
      = tokens.map (renameToken name wildcard) := by
    rw [maskOccurrences_eq_map, List.map_map]
    exact List.map_congr_left fun token htoken =>
      maskToken_renameToken hjunk (hfresh token htoken)
  rw [nameContexts, hmasked, occurrencePositions_map_renameToken hfresh]

end

/-! ### Snippets -/

open Lexer in
/-- The tokens of a perturbed snippet are those of the snippet with the junk name in them. -/
theorem exists_perturbScope {scope : Scope} {found : List Token}
    (hfound : Tokenizer.code.tokenize scope.snippet = .ok found)
    (hname : ⟨name, .identifier⟩ ∈ found) (hjunk : IsPlain junk.toList) :
    ∃ perturbed, perturbScope .code scope name junk = .ok perturbed ∧
      Tokenizer.code.texts perturbed.snippet
        = .ok ((found.map Token.text).map (renameToken name junk)) := by
  have hlexemes := lexeme_of_tokens (Tokenizer.code_eq_ok_iff.1 hfound)
  refine ⟨scope.withSnippet
    (" ".intercalate ((found.map Token.text).map (renameToken name junk))), ?_, ?_⟩
  · rw [perturbScope, Tokenizer.texts_eq_ok hfound]
    rfl
  · refine texts_intercalate fun text htext => ?_
    rw [List.map_map] at htext
    obtain ⟨token, htoken, rfl⟩ := List.mem_map.1 htext
    exact exists_lexeme_renameToken (hlexemes token htoken) (isWord_of_tokenize hfound hname) hjunk

/-- **A junk name is ranked in the contexts of the name it replaces.** Take a snippet of code with
a name in it, and a junk name that no token of it has. The perturbed snippet has the tokens of the
snippet, renamed, and its occurrences are at the places of the old ones. The contexts of the junk
name are those of the wildcard, put where the name was replaced.

If in every token the name is between two `%` wherever it stands, and no two names share one,
these are the contexts of the name. For the old name not to be left it is enough that none are
shared. -/
theorem perturbed_contexts {scope : Scope} {found : List Token} {name junk : String}
    (hfound : Tokenizer.code.tokenize scope.snippet = .ok found)
    (hname : ⟨name, .identifier⟩ ∈ found) (hjunk : IsPlain junk.toList)
    (hfresh : ∀ token ∈ found, Text.occurs junk token.text = false) :
    ∃ perturbed texts, perturbScope .code scope name junk = .ok perturbed ∧
      texts = found.map Token.text ∧
      Tokenizer.code.texts perturbed.snippet = .ok (texts.map (renameToken name junk)) ∧
      occurrencePositions junk (texts.map (renameToken name junk))
        = occurrencePositions name texts ∧
      (∀ (α : Type) (renamer : Renamer α), renamer.tokenizer = .code →
        renamer.snippetContexts perturbed.snippet junk
            = .ok (contextsAt renamer.model.order (texts.map (renameToken name wildcard))
                (occurrencePositions name texts)) ∧
          ((∀ token ∈ texts, isOccurrence name token = true → token ≠ name →
              OnlyWrapped name.toList token.toList ∧ Apart name.toList token.toList) →
            renamer.snippetContexts perturbed.snippet junk
              = renamer.snippetContexts scope.snippet name)) ∧
      ((∀ token ∈ texts, token ≠ name → Apart name.toList token.toList) →
        ∀ token ∈ texts.map (renameToken name junk), isOccurrence name token = false) := by
  obtain ⟨perturbed, hperturbed, htexts⟩ := exists_perturbScope hfound hname hjunk
  have hfresh' : ∀ token ∈ found.map Token.text, Text.occurs junk token = false :=
    List.forall_mem_map.2 hfresh
  have hsnippet := Tokenizer.texts_eq_ok hfound
  refine ⟨perturbed, _, hperturbed, rfl, htexts, occurrencePositions_map_renameToken hfresh',
    ?_, ?_⟩
  · -- The contexts of the new name are those of the renamed tokens; they are the old ones where
    -- renaming by hand to the wildcard is masking.
    intro α renamer hcode
    rw [← hcode] at htexts hsnippet
    have hcontexts : renamer.snippetContexts perturbed.snippet junk = .ok (nameContexts
        renamer.model.order junk ((found.map Token.text).map (renameToken name junk))) :=
      Renamer.snippetContexts_eq_ok htexts
    rw [nameContexts_map_renameToken hfresh' _ hjunk] at hcontexts
    refine ⟨hcontexts, fun hwrapped => ?_⟩
    have hmasked : (found.map Token.text).map (renameToken name wildcard)
        = maskOccurrences name (found.map Token.text) := by
      rw [maskOccurrences_eq_map]
      exact List.map_congr_left fun token htoken =>
        renameToken_wildcard (isWord_of_tokenize hfound hname).ne_nil (hwrapped token htoken)
    rw [hcontexts, Renamer.snippetContexts_eq_ok hsnippet, nameContexts, hmasked]
  · -- Without touching copies no occurrence of the old name is left.
    intro hapart
    refine List.forall_mem_map.2 fun token htoken => ?_
    exact isOccurrence_renameToken_self hjunk (hfresh _ hname) (hapart token htoken)

/-- A name that stands alone and once inside another token. -/
theorem perturbed_contexts_wrapped :
    let scope := Scope.ofSnippet "x = var%x%" .var
    let found : List Token := [⟨"x", .identifier⟩, ⟨"=", .operator⟩, ⟨"var%x%", .identifier⟩]
    Tokenizer.code.tokenize scope.snippet = .ok found ∧ ⟨"x", .identifier⟩ ∈ found ∧
      IsPlain "junk1".toList ∧ (∀ token ∈ found, Text.occurs "junk1" token.text = false) ∧
      ∃ perturbed, perturbScope .code scope "x" "junk1" = .ok perturbed ∧
        Renamer.pairRenamer.snippetContexts perturbed.snippet "junk1"
          = Renamer.pairRenamer.snippetContexts scope.snippet "x" ∧
        ∀ token ∈ ["junk1", "=", "var%junk1%"], isOccurrence "x" token = false := by
  intro scope found
  have hfound : Tokenizer.code.tokenize scope.snippet = .ok found := by cbv
  have hname : ⟨"x", .identifier⟩ ∈ found := by simp [found]
  have hjunk : IsPlain "junk1".toList := by decide
  have hfresh : ∀ token ∈ found, Text.occurs "junk1" token.text = false := by decide
  obtain ⟨perturbed, texts, hperturbed, rfl, -, -, hcontexts, hleft⟩ :=
    perturbed_contexts hfound hname hjunk hfresh
  have hwrapped : ∀ token ∈ found.map Token.text, isOccurrence "x" token = true → token ≠ "x" →
      OnlyWrapped "x".toList token.toList ∧ Apart "x".toList token.toList := by decide
  have hapart : ∀ token ∈ found.map Token.text, token ≠ "x" →
      Apart "x".toList token.toList := by decide
  exact ⟨hfound, hname, hjunk, hfresh, perturbed, hperturbed,
    (hcontexts _ Renamer.pairRenamer rfl).2 hwrapped, hleft hapart⟩

/-- Two names that share a `%`: the second one is left, and the junk name has not the contexts of
the name. -/
theorem perturbed_contexts_shared :
    let scope := Scope.ofSnippet "x = %x%x% ;" .var
    let found : List Token :=
      [⟨"x", .identifier⟩, ⟨"=", .operator⟩, ⟨"%x%x%", .identifier⟩, ⟨";", .other⟩]
    Tokenizer.code.tokenize scope.snippet = .ok found ∧ ⟨"x", .identifier⟩ ∈ found ∧
      IsPlain "junk1".toList ∧ (∀ token ∈ found, Text.occurs "junk1" token.text = false) ∧
      ∃ perturbed, perturbScope .code scope "x" "junk1" = .ok perturbed ∧
        perturbed.snippet = "junk1 = %junk1%x% ;" ∧
        Tokenizer.code.texts perturbed.snippet = .ok ["junk1", "=", "%junk1%x%", ";"] ∧
        isOccurrence "x" "%junk1%x%" = true ∧
        Renamer.pairRenamer.snippetContexts perturbed.snippet "junk1"
          ≠ Renamer.pairRenamer.snippetContexts scope.snippet "x" := by
  intro scope found
  have hfound : Tokenizer.code.tokenize scope.snippet = .ok found := by cbv
  have hname : ⟨"x", .identifier⟩ ∈ found := by simp [found]
  have hjunk : IsPlain "junk1".toList := by decide
  have hfresh : ∀ token ∈ found, Text.occurs "junk1" token.text = false := by decide
  have hperturbed : perturbScope .code scope "x" "junk1"
      = .ok (.ofSnippet "junk1 = %junk1%x% ;" .var) := by cbv
  have htexts : Tokenizer.code.texts "junk1 = %junk1%x% ;"
      = .ok ["junk1", "=", "%junk1%x%", ";"] := by cbv
  have htexts' : Tokenizer.code.texts "x = %x%x% ;" = .ok ["x", "=", "%x%x%", ";"] := by cbv
  refine ⟨hfound, hname, hjunk, hfresh, _, hperturbed, rfl, htexts, by decide, ?_⟩
  show Renamer.pairRenamer.snippetContexts "junk1 = %junk1%x% ;" "junk1"
    ≠ Renamer.pairRenamer.snippetContexts "x = %x%x% ;" "x"
  have hjunkContexts : Renamer.pairRenamer.snippetContexts "junk1 = %junk1%x% ;" "junk1"
    = .ok (nameContexts 2 "junk1" ["junk1", "=", "%junk1%x%", ";"]) :=
      Renamer.snippetContexts_eq_ok htexts
  have hnameContexts : Renamer.pairRenamer.snippetContexts "x = %x%x% ;" "x"
    = .ok (nameContexts 2 "x" ["x", "=", "%x%x%", ";"]) :=
      Renamer.snippetContexts_eq_ok htexts'
  rw [hjunkContexts, hnameContexts]
  -- Equal tallies would have equal keys, and the two lists of windows are closed terms.
  intro heq
  have hkeys := congrArg SortedMap.keys (Except.ok.inj heq)
  exact absurd hkeys (by decide +kernel)

end NaturalNames
