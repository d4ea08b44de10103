import Mathlib
import NaturalNames.Proofs.Renamer.Contexts
import NaturalNames.Token.Lexer

/-!
# `NaturalNames.Proofs.Renamer.Masking`: the current name put back

The contexts of a name have the wildcard where the name stood. Is the current name then scored on
the code as it is written? Putting the name back has to undo the masking, token by token.

It does for tokens without `%WC`, the wildcard less its last character (`fillToken_replace`): the
wildcard overlaps with itself in one `%` only, so the first wildcard of a masked token is the first
one that was put in, even next to a `%` of the token. Where a token does have `%WC` in front of the
name, that and the `%` of the wildcard behind it are taken for a wildcard.

From there on, contexts of masked tokens are masked contexts, and `Restores` says that the name
put back is a one-to-one correspondence of contexts that keeps their weights.
-/

set_option autoImplicit false

namespace NaturalNames

/-! ### Tokens -/

/-- The wildcard less its last character, which is its first. -/
def wildcardStem : String := "%WC"

/-- The stem of the wildcard as a list of characters. -/
theorem toList_wildcardStem : wildcardStem.toList = ['%', 'W', 'C'] := by decide

/-- The wildcard is its stem with a percent sign behind. -/
theorem toList_wildcard : wildcard.toList = wildcardStem.toList ++ ['%'] := by decide

/-- A text without the stem has no wildcard either. -/
theorem not_infix_wildcard {text : List Char} (h : ¬ wildcardStem.toList <:+: text) :
    ¬ wildcard.toList <:+: text := fun hinfix =>
  h (List.IsInfix.trans ⟨[], ['%'], toList_wildcard.symm⟩ hinfix)

/-- A wildcard is the first one if there is none in the text before it, and if that does not end
with the stem. -/
theorem splitFirst_wildcard {before : List Char} (hbefore : ¬ wildcard.toList <:+: before)
    (hstem : ¬ wildcardStem.toList <:+ before) (behind : List Char) :
    Text.splitFirst wildcard.toList (before ++ wildcard.toList ++ behind)
      = some (before, behind) := by
  refine Text.splitFirst_eq_some_iff.2 ⟨rfl, fun k hk hstart => ?_⟩
  have hsuffix : before.drop k <:+ before := List.drop_suffix k before
  rw [List.append_assoc, List.drop_append_of_le_length (Nat.le_of_lt hk), toList_wildcard,
    toList_wildcardStem] at hstart
  -- All characters of an earlier wildcard, or one to three, would come from the text before.
  match hdrop : before.drop k with
  | [] =>
    have := List.drop_eq_nil_iff.1 hdrop
    omega
  | [a] => simp [hdrop] at hstart
  | [a, b] => simp [hdrop] at hstart
  | [a, b, c] =>
    rw [hdrop] at hstart hsuffix
    simp only [List.cons_append, List.cons_prefix_cons] at hstart
    obtain ⟨rfl, rfl, rfl, -⟩ := hstart
    exact hstem hsuffix
  | a :: b :: c :: d :: rest =>
    rw [hdrop] at hstart hsuffix
    simp only [List.cons_append, List.nil_append, List.cons_prefix_cons] at hstart
    obtain ⟨rfl, rfl, rfl, rfl, -⟩ := hstart
    exact hbefore (List.IsInfix.trans ⟨[], rest, rfl⟩ hsuffix.isInfix)

/-- A name that was replaced by the wildcard comes back, if the text held no stem of a wildcard. -/
private theorem replaceAll_wildcard {name text : List Char} (hname : name ≠ [])
    (htext : ¬ wildcardStem.toList <:+: text) :
    Text.replaceAll wildcard.toList name (Text.replaceAll name wildcard.toList text) = text := by
  have hwildcard : wildcard.toList ≠ [] := by decide
  induction text using Text.cut_induction hname with
  -- No copy of the name: nothing is masked, and no wildcard is there to be taken back.
  | uncut text hcut =>
    rw [Text.replaceAll_of_uncut hname _ hcut,
      Text.replaceAll_of_uncut hwildcard _
        (Text.splitFirst_eq_none_iff.2 (not_infix_wildcard htext))]
  -- The first copy of the name becomes the first wildcard, since the text before it does not end
  -- like the wildcard's stem.
  | cut text before behind hcut ih =>
    have heq := Text.eq_of_splitFirst hcut
    have hbefore : ¬ wildcardStem.toList <:+: before := fun h =>
      htext (h.trans ⟨[], name ++ behind, by simp [heq]⟩)
    have hbehind : ¬ wildcardStem.toList <:+: behind := fun h =>
      htext (h.trans ⟨before ++ name, [], by simp [heq]⟩)
    rw [Text.replaceAll_of_cut hname _ hcut,
      Text.replaceAll_of_cut hwildcard _ (splitFirst_wildcard (not_infix_wildcard hbefore)
        (mt List.IsSuffix.isInfix hbefore) _), ih hbehind, heq]

/-- The name put back gives the token that was masked. -/
theorem fillToken_replace {name token : String} (hname : name ≠ "")
    (htoken : Text.occurs wildcardStem token = false) :
    NGram.fillToken name (Text.replace name wildcard token) = token := by
  have hlist : name.toList ≠ [] := by simpa using hname
  rw [← Bool.not_eq_true, Text.occurs_iff] at htoken
  rw [NGram.fillToken, Text.replace, Text.replace, String.toList_ofList,
    replaceAll_wildcard hlist htoken, String.ofList_toList]

-- With the stem in front of the name, the first wildcard is not the one that was put in.
example : NGram.fillToken "x" (Text.replace "x" wildcard "%WCx%x%") = "xWC%%x%" := by decide

/-! ### Contexts -/

/-- The token with the wildcard in place of the name, if it is an occurrence. -/
def maskToken (name token : String) : String :=
  if isOccurrence name token then Text.replace name wildcard token else token

/-- Leaving a name open changes each token by itself. -/
theorem maskOccurrences_eq_map (name : String) (tokens : List String) :
    maskOccurrences name tokens = tokens.map (maskToken name) := rfl

/-- The contexts of a name are the contexts of its occurrences, masked. -/
theorem nameContexts_eq_ofKeys (order : Nat) (name : String) (tokens : List String) :
    nameContexts order name tokens = .ofKeys
      ((ngramsAt order tokens (occurrencePositions name tokens)).map
        (.mapTokens (maskToken name))) := by
  rw [nameContexts, maskOccurrences_eq_map, contextsAt_map]

/-- The name put into the first contexts is a one-to-one correspondence with the second ones, and
it keeps the weights. -/
structure Restores (name : String) (masked written : ContextSet) : Prop where
  /-- The name can be put into every context, which gives one of the same weight. -/
  get?_eq : ∀ ngram ∈ masked.keys, ∃ filled, ngram.substitute name = .ok filled ∧
    written.get? filled = masked.get? ngram
  injective : ∀ a ∈ masked.keys, ∀ b ∈ masked.keys,
    a.substitute name = b.substitute name → a = b
  surjective : ∀ filled ∈ written.keys, ∃ ngram ∈ masked.keys, ngram.substitute name = .ok filled

section

variable {order : Nat} {name : String} {tokens : List String}

/-- A token in which the name was left open is the token again when the name is put back. -/
theorem fillToken_maskToken (hname : name ≠ "") {token : String}
    (htoken : Text.occurs wildcardStem token = false) :
    (if NGram.isOpen (maskToken name token) then NGram.fillToken name (maskToken name token)
      else maskToken name token) = token := by
  rw [maskToken]
  split
  next hoccurrence =>
    rw [if_pos (isOpen_replace_of_isOccurrence hoccurrence), fillToken_replace hname htoken]
  next =>
    -- The token has no wildcard, so it is left as it is.
    rw [← Bool.not_eq_true, Text.occurs_iff] at htoken
    exact if_neg (mt Text.occurs_iff.1 (not_infix_wildcard htoken))

/-- The name put into a masked context gives the context. -/
theorem substitute_mapTokens_maskToken (hname : name ≠ "")
    (htokens : ∀ token ∈ tokens, Text.occurs wildcardStem token = false)
    {ngram : NGram} (hngram : ngram ∈ ngramsAt order tokens (occurrencePositions name tokens)) :
    (ngram.mapTokens (maskToken name)).substitute name = .ok ngram := by
  rw [NGram.substitute_eq_ok_iff]
  constructor
  · refine allOpen_nameContexts order name tokens _ ?_
    rw [nameContexts_eq_ofKeys, Tally.mem_keys_ofKeys]
    exact List.mem_map_of_mem hngram
  · rw [NGram.mapTokens, List.map_map]
    refine (List.map_id ngram.tokens).symm.trans (List.map_congr_left fun token htoken => ?_)
    exact (fillToken_maskToken hname (htokens token (mem_of_mem_ngramsAt hngram htoken))).symm

/-- Putting the name back gives the contexts of the tokens as they were, with their weights. -/
theorem restores_nameContexts (hname : name ≠ "")
    (htokens : ∀ token ∈ tokens, Text.occurs wildcardStem token = false) :
    Restores name (nameContexts order name tokens)
      (contextsAt order tokens (occurrencePositions name tokens)) := by
  have hback : ∀ ngram ∈ ngramsAt order tokens (occurrencePositions name tokens),
      (ngram.mapTokens (maskToken name)).substitute name = .ok ngram := fun _ hngram =>
    substitute_mapTokens_maskToken hname htokens hngram
  rw [nameContexts_eq_ofKeys, contextsAt_eq_ofKeys]
  -- A masked context is known by what comes back of it.
  have hinj : ∀ a ∈ ngramsAt order tokens (occurrencePositions name tokens),
      ∀ b ∈ ngramsAt order tokens (occurrencePositions name tokens),
        a.mapTokens (maskToken name) = b.mapTokens (maskToken name) → a = b := by
    intro a ha b hb hab
    exact Except.ok.inj ((hback a ha).symm.trans (hab ▸ hback b hb))
  refine ⟨?_, ?_, ?_⟩
  · intro ngram hngram
    obtain ⟨written, hwritten, rfl⟩ := List.mem_map.1 (Tally.mem_keys_ofKeys.1 hngram)
    exact ⟨written, hback written hwritten, (Tally.get?_ofKeys_map hinj hwritten).symm⟩
  · intro a ha b hb hab
    obtain ⟨a, hmem, rfl⟩ := List.mem_map.1 (Tally.mem_keys_ofKeys.1 ha)
    obtain ⟨b, hmem', rfl⟩ := List.mem_map.1 (Tally.mem_keys_ofKeys.1 hb)
    rw [hback a hmem, hback b hmem'] at hab
    rw [Except.ok.inj hab]
  · intro filled hfilled
    rw [Tally.mem_keys_ofKeys] at hfilled
    exact ⟨_, Tally.mem_keys_ofKeys.2 (List.mem_map_of_mem hfilled), hback filled hfilled⟩

end

namespace Renamer

variable {α : Type}

/-- **The current name is scored on the code as it is written.** Take any tokenizer, any order, a
snippet no token of which has `%WC`, and a name that is not empty. The name put back into the
contexts that are scored gives the contexts of its occurrences in the tokens as they are, one for
one and with their weights. The occurrences are the tokens that are the name or hold it between two
`%`, and each of them comes back unchanged. -/
theorem current_name_restored (renamer : Renamer α) (snippet name : String) (tokens : List String)
    (hname : name ≠ "") (htokens : renamer.tokenizer.texts snippet = .ok tokens)
    (hstem : ∀ token ∈ tokens, Text.occurs wildcardStem token = false) :
    ∃ contexts, renamer.snippetContexts snippet name = .ok contexts ∧
      Restores name contexts
        (contextsAt renamer.model.order tokens (occurrencePositions name tokens)) ∧
      (∀ position, position ∈ (occurrencePositions name tokens).toList ↔
        ∃ token, tokens[position]? = some token ∧
          (token = name ∨ Text.occurs ("%" ++ name ++ "%") token = true)) ∧
      ∀ token ∈ tokens, isOccurrence name token = true →
        NGram.fillToken name (Text.replace name wildcard token) = token := by
  refine ⟨_, snippetContexts_eq_ok htokens, restores_nameContexts hname hstem, ?_, ?_⟩
  · intro position
    rw [mem_occurrencePositions_iff]
    simp only [isOccurrence, Bool.or_eq_true, decide_eq_true_eq]
  · exact fun token htoken _ => fillToken_replace hname (hstem token htoken)

/-- Reads code and looks at two tokens at a time. -/
def pairRenamer : Renamer Float where
  model := {
    order := 2
    probability := fun _ => 0.5
    fillers := fun _ _ => .empty
    isUnknown := fun _ => true }
  tokenizer := .code
  priors := []
  config := {}
  mode := .crossEntropy

/-- A name that stands alone and once more inside another token. -/
theorem current_name_restored_wrapped :
    "x" ≠ "" ∧ pairRenamer.tokenizer.texts "x = var%x%" = .ok ["x", "=", "var%x%"] ∧
      (∀ token ∈ ["x", "=", "var%x%"], Text.occurs wildcardStem token = false) ∧
      ∃ contexts, pairRenamer.snippetContexts "x = var%x%" "x" = .ok contexts ∧
        Restores "x" contexts
          (contextsAt 2 ["x", "=", "var%x%"] (occurrencePositions "x" ["x", "=", "var%x%"])) ∧
        2 ∈ (occurrencePositions "x" ["x", "=", "var%x%"]).toList ∧
        NGram.fillToken "x" (Text.replace "x" wildcard "var%x%") = "var%x%" := by
  have htokens : pairRenamer.tokenizer.texts "x = var%x%" = .ok ["x", "=", "var%x%"] := by cbv
  have hstem : ∀ token ∈ ["x", "=", "var%x%"], Text.occurs wildcardStem token = false := by decide
  obtain ⟨contexts, hcontexts, hrestores, hpositions, hback⟩ :=
    current_name_restored pairRenamer "x = var%x%" "x" _ (by decide) htokens hstem
  refine ⟨by decide, htokens, hstem, contexts, hcontexts, hrestores, ?_, ?_⟩
  · exact (hpositions 2).2 ⟨"var%x%", rfl, .inr (by decide)⟩
  · exact hback "var%x%" (by decide) (by decide)

end Renamer

end NaturalNames
