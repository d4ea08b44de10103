import NaturalNames.Proofs.NGram.Window
import NaturalNames.Proofs.Text.Substring
import NaturalNames.Renamer

/-!
# `NaturalNames.Proofs.Renamer.Contexts`: every context has a place for a name

A renamer gets its contexts in three ways, and in each of them it first opens the tokens that it
wants contexts of. `AllOpen` says that every context has an open token, so that a name can be put
into it. It holds of the contexts of a name (`allOpen_nameContexts`), of those of positions
(`allOpen_contextsAt_maskPositions`) and of those of one position (`allOpen_formattingContexts`).
-/

set_option autoImplicit false

namespace NaturalNames

/-- Every context has an open token. -/
def AllOpen (contexts : ContextSet) : Prop :=
  ∀ ngram ∈ contexts.keys, ∃ token ∈ ngram.tokens, NGram.isOpen token = true

/-- Every name can be put into open contexts. -/
theorem AllOpen.exists_substitute {contexts : ContextSet} (h : AllOpen contexts) {ngram : NGram}
    (hngram : ngram ∈ contexts.keys) (name : String) :
    ∃ filled, ngram.substitute name = .ok filled :=
  NGram.exists_substitute_eq_ok (h ngram hngram) name

/-- The bare wildcard is open. -/
theorem isOpen_wildcard : NGram.isOpen wildcard = true := by decide

/-- Contexts of positions with open tokens have an open token. -/
theorem allOpen_contextsAt {order : Nat} {tokens : List String} {positions : SortedSet Nat}
    (h : ∀ position ∈ positions.toList, ∀ token, tokens[position]? = some token →
      NGram.isOpen token = true) : AllOpen (contextsAt order tokens positions) := by
  intro ngram hngram
  obtain ⟨position, hmem, token, hget, htoken⟩ := mem_of_mem_contextsAt hngram
  exact ⟨token, htoken, h position hmem token hget⟩

/-! ### The contexts of a name -/

/-- An occurrence holds the name. -/
theorem infix_of_isOccurrence {name token : String} (h : isOccurrence name token = true) :
    name.toList <:+: token.toList := by
  rw [isOccurrence, Bool.or_eq_true, decide_eq_true_eq, Text.occurs_iff] at h
  rcases h with rfl | h
  · exact List.infix_rfl
  · -- The name is inside the wrapped name.
    refine List.IsInfix.trans ⟨['%'], ['%'], ?_⟩ h
    simp [String.toList_append]

/-- An occurrence is open after the wildcard was put in place of the name. -/
theorem isOpen_replace_of_isOccurrence {name token : String} (h : isOccurrence name token = true) :
    NGram.isOpen (Text.replace name wildcard token) = true :=
  Text.occurs_replace (Text.occurs_iff.2 (infix_of_isOccurrence h))

/-- A name occurs where a token is an occurrence of it. -/
theorem mem_occurrencePositions_iff {name : String} {tokens : List String} {position : Nat} :
    position ∈ (occurrencePositions name tokens).toList ↔
      ∃ token, tokens[position]? = some token ∧ isOccurrence name token = true := by
  rw [occurrencePositions, SortedSet.mem_ofList_iff, List.mem_filter, List.mem_range,
    Option.any_eq_true]
  refine ⟨fun h => h.2, fun h => ⟨?_, h⟩⟩
  obtain ⟨token, hget, -⟩ := h
  exact (List.getElem?_eq_some_iff.1 hget).1

/-- The contexts of a name are open, as each holds one of the places that were left open. -/
theorem allOpen_nameContexts (order : Nat) (name : String) (tokens : List String) :
    AllOpen (nameContexts order name tokens) := by
  refine allOpen_contextsAt fun position hmem masked hget => ?_
  obtain ⟨token, htoken, hoccurrence⟩ := mem_occurrencePositions_iff.1 hmem
  rw [maskOccurrences, List.getElem?_map, htoken, Option.map_some, if_pos hoccurrence] at hget
  rw [← Option.some.inj hget]
  exact isOpen_replace_of_isOccurrence hoccurrence

/-- A snippet with tokens has the contexts of the name in them. -/
theorem Renamer.snippetContexts_eq_ok {α : Type} {renamer : Renamer α} {snippet name : String}
    {tokens : List String} (htokens : renamer.tokenizer.texts snippet = .ok tokens) :
    renamer.snippetContexts snippet name = .ok (nameContexts renamer.model.order name tokens) := by
  rw [snippetContexts, htokens]
  rfl

/-! ### The contexts of positions -/

/-- Writing the wildcard at some positions changes the tokens there and no others. -/
private theorem getElem?_foldl_set (positions : List Nat) (tokens : List String) (i : Nat) :
    (positions.foldl (fun masked position => masked.set position wildcard) tokens)[i]?
      = if i ∈ positions then tokens[i]?.map fun _ => wildcard else tokens[i]? := by
  induction positions generalizing tokens with
  | nil => simp
  | cons position rest ih =>
    rw [List.foldl_cons, ih, List.getElem?_set']
    by_cases hi : position = i
    · subst hi
      cases tokens[position]? <;> simp
    · simp [hi, Ne.symm hi]

/-- The given positions have the wildcard, and the others the token they had. -/
theorem getElem?_maskPositions (positions : SortedSet Nat) (tokens : List String) (i : Nat) :
    (Renamer.maskPositions positions tokens)[i]?
      = if i ∈ positions.toList then tokens[i]?.map fun _ => wildcard else tokens[i]? :=
  getElem?_foldl_set _ _ _

/-- Leaving positions open does not change the number of tokens. -/
theorem length_maskPositions (positions : SortedSet Nat) (tokens : List String) :
    (Renamer.maskPositions positions tokens).length = tokens.length := by
  rw [Renamer.maskPositions]
  generalize positions.toList = list
  induction list generalizing tokens with
  | nil => rfl
  | cons position rest ih => rw [List.foldl_cons, ih, List.length_set]

/-- The contexts of positions that were left open are open. -/
theorem allOpen_contextsAt_maskPositions (order : Nat) (positions : SortedSet Nat)
    (tokens : List String) :
    AllOpen (contextsAt order (Renamer.maskPositions positions tokens) positions) := by
  refine allOpen_contextsAt fun position hmem token hget => ?_
  rw [getElem?_maskPositions, if_pos hmem] at hget
  obtain ⟨-, -, rfl⟩ := Option.map_eq_some_iff.1 hget
  exact isOpen_wildcard

/-- The contexts of a token are open, as each window holds its position. -/
theorem allOpen_formattingContexts {order : Nat} (horder : 0 < order) (index : Nat)
    (tokens : List String) : AllOpen (formattingContexts order index tokens) := fun _ hngram =>
  ⟨wildcard, mem_of_mem_formattingContexts horder hngram, isOpen_wildcard⟩

end NaturalNames
