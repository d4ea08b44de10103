import NaturalNames.Backoff
import NaturalNames.Proofs.NGram.Bounds
import NaturalNames.Proofs.Ordered.Set
import NaturalNames.Proofs.Outcome
import NaturalNames.Proofs.Renamer.Contexts
import NaturalNames.Scorer
import NaturalNames.Token.Lexer

/-!
# `NaturalNames.Proofs.Renamer.Extracted`: a name that was extracted is found again

The flat extractor and the renamer cut the same text into tokens, each for itself, and look for
names in different ways. The extractor takes the tokens that are identifiers (`Extracts`). The
renamer takes a name and looks for the tokens that are it or hold it between two marks.

Every name that the extractor gives is the text of a token. So the renamer finds it there at least,
and `order` contexts for each token in which it finds it (`total_nameContexts`). There are contexts
to score then, and a name is not scored by itself (`FoundAgain`).
-/

set_option autoImplicit false

namespace NaturalNames

/-! ### How often a name occurs -/

/-- Counting positions is counting elements. -/
theorem countP_range_getElem? {β : Type} (p : β → Bool) (list : List β) :
    (List.range list.length).countP (fun i => list[i]?.any p) = list.countP p := by
  induction list with
  | nil => rfl
  | cons b rest ih =>
    rw [List.length_cons, List.range_succ_eq_map, List.countP_cons, List.countP_map,
      List.countP_cons, ← ih]
    rfl

/-- Every token that is an occurrence has a position, and only one. -/
theorem countP_occurrencePositions (name : String) (tokens : List String) :
    (occurrencePositions name tokens).toList.countP (· < tokens.length)
      = tokens.countP (isOccurrence name) := by
  -- The positions ascend, so the set keeps all of them.
  have hperm : (occurrencePositions name tokens).toList.Perm
      ((List.range tokens.length).filter fun i => tokens[i]?.any (isOccurrence name)) := by
    apply SortedSet.perm_ofList
    apply List.Pairwise.filter
    exact List.pairwise_lt_range.imp fun {i j} hlt => by
      rw [Nat.compare_eq_lt.2 hlt]
      decide
  have hall : ∀ i ∈ (List.range tokens.length).filter fun i => tokens[i]?.any (isOccurrence name),
      decide (i < tokens.length) = true := by
    intro i hi
    exact decide_eq_true (List.mem_range.1 (List.mem_filter.1 hi).1)
  rw [hperm.countP_eq, List.countP_eq_length.2 hall, ← List.countP_eq_length_filter,
    countP_range_getElem?]

/-- A name has `order` contexts for each of its occurrences. -/
theorem total_nameContexts (order : Nat) (name : String) (tokens : List String) :
    (nameContexts order name tokens).total = order * tokens.countP (isOccurrence name) := by
  have hlength : (maskOccurrences name tokens).length = tokens.length := List.length_map _
  rw [nameContexts, total_contextsAt, hlength, countP_occurrencePositions]

/-- A tally that counts something is not empty. -/
theorem Tally.isEmpty_eq_false_of_total_pos {κ : Type} [Ord κ] {t : Tally κ} (h : 0 < t.total) :
    t.isEmpty = false := by
  rw [← Bool.not_eq_true, SortedMap.isEmpty, List.isEmpty_iff]
  intro hempty
  rw [Tally.total, SortedMap.values, hempty] at h
  exact absurd h (Nat.lt_irrefl 0)

/-! ### What the extractor finds -/

/-- The occurrences are the different identifiers among the tokens of a unit, each with the unit as
its snippet. -/
structure Extracts (tokenizer : Tokenizer) (kind : NameKind) (unit : String) (tokens : List Token)
    (occurrences : List Occurrence) : Prop where
  /-- No name comes twice. -/
  ascending : (occurrences.map Occurrence.name).Pairwise (· < ·)
  mem_names_iff : ∀ name, name ∈ occurrences.map Occurrence.name ↔
    ∃ token ∈ tokens, tokenizer.isIdentifier token = true ∧ token.text = name
  scope_eq : ∀ o ∈ occurrences, o.scope = { Scope.ofSnippet unit kind with category := "unit" }

namespace ScopeExtractor

variable {tokenizer : Tokenizer} {unit : String} {tokens : List Token}

/-- The identifiers of a text are the texts of its identifier tokens. -/
theorem mem_identifiers_iff {name : String} :
    name ∈ (identifiers tokenizer tokens).toList ↔
      ∃ token ∈ tokens, tokenizer.isIdentifier token = true ∧ token.text = name := by
  simp only [identifiers, SortedSet.mem_ofList_iff, List.mem_map, List.mem_filter, and_assoc]

/-- From a unit with tokens the flat extractor gives each identifier once, in the scope of the
unit. -/
theorem exists_extract_flat (kind : NameKind) (h : tokenizer.tokenize unit = .ok tokens) :
    ∃ occurrences, (flat tokenizer kind).extract unit = .ok occurrences ∧
      Extracts tokenizer kind unit tokens occurrences := by
  refine ⟨_, except_map_eq_ok_iff.2 ⟨tokens, h, rfl⟩, ?_⟩
  -- The occurrences carry the identifiers as they are listed, in the set's ascending order.
  have hnames : ((identifiers tokenizer tokens).toList.map fun name =>
      (⟨{ Scope.ofSnippet unit kind with category := "unit" }, name⟩ : Occurrence)).map
        Occurrence.name = (identifiers tokenizer tokens).toList := by
    rw [List.map_map]
    exact List.map_id _
  constructor
  · rw [hnames]
    exact (identifiers tokenizer tokens).ascending.imp compareOfLessAndEq_eq_lt.1
  · intro name
    rw [hnames]
    exact mem_identifiers_iff
  · intro o ho
    obtain ⟨name, -, rfl⟩ := List.mem_map.1 ho
    rfl

end ScopeExtractor

/-! ### What the renamer finds -/

section

variable {α : Type} [Arithmetic α]

/-- The renamer finds contexts of a name and ranks the candidates on them. The name does not have to
be scored by itself. -/
structure FoundAgain (renamer : Renamer α) (tokens : List Token) (o : Occurrence)
    (contexts : ContextSet) : Prop where
  snippetContexts_eq : renamer.snippetContexts o.scope.snippet o.name = .ok contexts
  total_eq : contexts.total
    = renamer.model.order * (tokens.map Token.text).countP (isOccurrence o.name)
  order_le_total : renamer.model.order ≤ contexts.total
  isEmpty_eq : contexts.isEmpty = false
  scoredContexts_eq : Renamer.scoredContexts contexts = contexts
  rank_eq : renamer.rank o.scope o.name = renamer.rankOn contexts o.name (some o.scope)

/-- A name that was extracted is found in its scope, as often as its token stands there. -/
theorem Extracts.foundAgain {renamer : Renamer α} {kind : NameKind} {unit : String}
    {tokens : List Token} {occurrences : List Occurrence} {o : Occurrence}
    (h : Extracts renamer.tokenizer kind unit tokens occurrences)
    (htokens : renamer.tokenizer.tokenize unit = .ok tokens) (horder : 1 ≤ renamer.model.order)
    (ho : o ∈ occurrences) :
    FoundAgain renamer tokens o
      (nameContexts renamer.model.order o.name (tokens.map Token.text)) := by
  have htexts : renamer.tokenizer.texts o.scope.snippet = .ok (tokens.map Token.text) := by
    rw [h.scope_eq o ho]
    exact except_map_eq_ok_iff.2 ⟨tokens, htokens, rfl⟩
  have hcontexts : renamer.snippetContexts o.scope.snippet o.name
      = .ok (nameContexts renamer.model.order o.name (tokens.map Token.text)) :=
    Renamer.snippetContexts_eq_ok htexts
  have htotal := total_nameContexts renamer.model.order o.name (tokens.map Token.text)
  -- The token that the extractor took the name from is an occurrence.
  have hcount : 0 < (tokens.map Token.text).countP (isOccurrence o.name) := by
    obtain ⟨token, htoken, -, htext⟩ := (h.mem_names_iff o.name).1 (List.mem_map_of_mem ho)
    rw [List.countP_pos_iff]
    exact ⟨o.name, htext ▸ List.mem_map_of_mem htoken, by simp [isOccurrence]⟩
  have hle := Nat.le_mul_of_pos_right renamer.model.order hcount
  rw [← htotal] at hle
  have hempty := Tally.isEmpty_eq_false_of_total_pos (Nat.lt_of_lt_of_le horder hle)
  constructor
  · exact hcontexts
  · exact htotal
  · exact hle
  · exact hempty
  · rw [Renamer.scoredContexts, hempty]
    rfl
  · rw [Renamer.rank, hcontexts]

/-- **An extracted name is found again.** Take any tokenizer, that of this library or another one.
If it cuts a unit into tokens, the flat extractor gives the different texts of the identifiers
among them, ascending, each with the whole unit as its snippet. A renamer with the same tokenizer
finds every one of these names, and its contexts weigh `order` for each token that is the name or
holds it between two marks. There is such a token, so with any order from one on the name is not
scored by itself.

A scorer with the flat extractor fails only if the unit cannot be cut into tokens, and with the
error of the tokenizer. -/
theorem extracted_names_found_again (tokenizer : Tokenizer) (kind : NameKind) :
    (∀ (unit : String) (tokens : List Token), tokenizer.tokenize unit = .ok tokens →
      ∃ occurrences, (ScopeExtractor.flat tokenizer kind).extract unit = .ok occurrences ∧
        Extracts tokenizer kind unit tokens occurrences ∧
        ∀ renamer : Renamer α, renamer.tokenizer = tokenizer → 1 ≤ renamer.model.order →
          ∀ o ∈ occurrences, ∃ contexts, FoundAgain renamer tokens o contexts) ∧
    ∀ (scorer : Scorer α) (machine : Machine) (unit : String) (e : Error),
      scorer.extractor = .flat tokenizer kind →
      (scorer.scoreUnit machine unit = .error e ↔ tokenizer.tokenize unit = .error e) := by
  constructor
  · intro unit tokens htokens
    obtain ⟨occurrences, hextract, hextracts⟩ := ScopeExtractor.exists_extract_flat kind htokens
    refine ⟨occurrences, hextract, hextracts, ?_⟩
    rintro renamer rfl horder o ho
    exact ⟨_, hextracts.foundAgain htokens horder ho⟩
  · intro scorer machine unit e hextractor
    rw [Scorer.scoreUnit, except_map_eq_error_iff, hextractor]
    exact except_map_eq_error_iff

end

/-- The name `x` stands by itself, between marks and inside a literal. With its marks it is a name
of its own, which stands in the text once. -/
theorem extracted_names_found_again_marked :
    ∃ (tokens : List Token) (occurrences : List Occurrence) (scorer : Scorer Float),
      Tokenizer.code.tokenize "x = %x% + '%x%' ;" = .ok tokens ∧
      (ScopeExtractor.flat .code .var).extract "x = %x% + '%x%' ;" = .ok occurrences ∧
      occurrences.map Occurrence.name = ["%x%", "x"] ∧
      scorer.renamer.tokenizer = .code ∧ 1 ≤ scorer.renamer.model.order ∧
      (∃ o ∈ occurrences, o.name = "x" ∧ ∃ contexts, contexts.total = 6 ∧
        scorer.renamer.snippetContexts "x = %x% + '%x%' ;" "x" = .ok contexts) ∧
      scorer.extractor = .flat .code .var ∧
      scorer.scoreUnit (.inTurn 4) "x = '" = .error (.tokenize (.openLiteral '\'')) := by
  let model : BackoffModel := ⟨2, 0.4, .unknownOnly, .empty⟩
  let renamer : Renamer Float := ⟨model.languageModel, .code, [], {}, .crossEntropy⟩
  let scorer : Scorer Float := ⟨renamer, .flat .code .var, {}, 8⟩
  have htokens : Tokenizer.code.tokenize "x = %x% + '%x%' ;" = .ok [⟨"x", .identifier⟩,
      ⟨"=", .operator⟩, ⟨"%x%", .identifier⟩, ⟨"+", .operator⟩, ⟨"'%x%'", .literal⟩,
      ⟨";", .other⟩] := by decide +kernel
  have hopen : Tokenizer.code.tokenize "x = '" = .error (.tokenize (.openLiteral '\'')) := by
    decide +kernel
  obtain ⟨hfound, hfails⟩ := extracted_names_found_again (α := Float) .code .var
  obtain ⟨occurrences, hextract, hextracts, hfound⟩ := hfound _ _ htokens
  have hnames : occurrences.map Occurrence.name = ["%x%", "x"] := by
    obtain ⟨_, htokens', rfl⟩ := except_map_eq_ok_iff.1 hextract
    cases htokens.symm.trans htokens'
    decide
  obtain ⟨o, ho, hname⟩ : ∃ o ∈ occurrences, o.name = "x" := by
    have hmem : "x" ∈ occurrences.map Occurrence.name := by rw [hnames]; decide
    exact List.mem_map.1 hmem
  obtain ⟨contexts, hcontexts⟩ := hfound renamer rfl (by decide) o ho
  have hsnippet := hcontexts.snippetContexts_eq
  rw [hextracts.scope_eq o ho, hname] at hsnippet
  have htotal : contexts.total = 6 := by
    rw [hcontexts.total_eq, hname]
    decide
  exact ⟨_, occurrences, scorer, htokens, hextract, hnames, rfl, by decide,
    ⟨o, ho, hname, contexts, htotal, hsnippet⟩, rfl, (hfails scorer _ _ _ rfl).2 hopen⟩

end NaturalNames
