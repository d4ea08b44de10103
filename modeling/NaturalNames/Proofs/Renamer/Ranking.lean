import Mathlib
import NaturalNames.Proofs.Renamer.Contexts
import NaturalNames.Proofs.Renaming
import NaturalNames.Token.Lexer

/-!
# `NaturalNames.Proofs.Renamer.Ranking`: a ranking is the pool without the names that have no score

A name has a score if the model finds it likely in every context (`Scorable`): each probability
is a finite number above zero. Names of the pool that have a score are ranked, each once, and no
others are.

* `exists_scoreCandidate_iff` takes a score apart into the probabilities that it is made of.
* `perm_scoreCandidates` says that a ranking lists names of its pool in another order, since
  names differ and so no renaming is dropped.
* `RanksScorable` is what holds of a ranking; `ranksScorable_rankOn` proves it wherever all
  contexts are open, and `ranking_of_scorable_candidates` says so of the three kinds of rankings.
-/

set_option autoImplicit false

namespace NaturalNames.Renamer

variable {α : Type}

/-! ### The pool -/

section Pool

variable (renamer : Renamer α) (contexts : ContextSet) (current : String)

/-- There are no more fillers among the candidates than the configuration allows. -/
theorem length_topFillers_le :
    (renamer.topFillers contexts current).length ≤ renamer.config.maxCandidates := by
  rw [topFillers, List.length_map]
  exact List.length_take_le _ _

/-- The candidates are the top fillers, the name itself and the symbol for unknown ones. -/
theorem mem_candidatePool_iff {name : String} :
    name ∈ (renamer.candidatePool contexts current).toList ↔
      name = unknownSymbol ∨ name = current ∨ name ∈ renamer.topFillers contexts current := by
  rw [candidatePool, SortedSet.mem_insert_iff, SortedSet.mem_insert_iff, SortedSet.mem_ofList_iff]

/-- There are at most two more candidates than the configuration allows fillers. -/
theorem length_candidatePool_le :
    (renamer.candidatePool contexts current).toList.length ≤ renamer.config.maxCandidates + 2 := by
  let fillers := SortedSet.ofList (renamer.topFillers contexts current)
  have hfillers : fillers.toList.length ≤ renamer.config.maxCandidates :=
    Nat.le_trans (SortedSet.length_ofList_le _) (length_topFillers_le renamer contexts current)
  have hcurrent := SortedSet.length_insert_le fillers current
  have hunknown := SortedSet.length_insert_le (fillers.insert current) unknownSymbol
  exact Nat.le_trans hunknown (by omega)

end Pool

variable [Arithmetic α] (renamer : Renamer α)

/-! ### Names with a score -/

/-- The probability of an n-gram has a logarithm: it is finite and above zero. -/
def Likely (ngram : NGram) : Prop :=
  Arithmetic.isFinite (renamer.model.probability ngram) = true ∧
    ¬ renamer.model.probability ngram ≤ Arithmetic.ofNat 0

/-- The model finds a name likely in every context and, where there is none, by itself. -/
def Scorable (contexts : ContextSet) (name : String) : Prop :=
  (∀ ngram ∈ contexts.keys, ∀ filled, ngram.substitute name = .ok filled → renamer.Likely filled) ∧
    (contexts.isEmpty = true → renamer.Likely (.single name))

instance (ngram : NGram) : Decidable (renamer.Likely ngram) :=
  inferInstanceAs (Decidable (_ ∧ _))

instance (contexts : ContextSet) (name : String) : Decidable (renamer.Scorable contexts name) :=
  haveI (ngram : NGram) : Decidable
      (∀ filled, ngram.substitute name = .ok filled → renamer.Likely filled) :=
    match h : ngram.substitute name with
    | .ok filled => decidable_of_iff (renamer.Likely filled) (by simp)
    | .error _ => isTrue (by simp)
  inferInstanceAs (Decidable (_ ∧ _))

variable {renamer} {contexts : ContextSet} {name : String}

/-- An n-gram gives a logarithm if the name can be put in and what comes of it is likely. -/
theorem exists_logProbability_iff {ngram : NGram} :
    (∃ bits, renamer.logProbability name ngram = .ok bits) ↔
      ∃ filled, ngram.substitute name = .ok filled ∧ renamer.Likely filled := by
  rw [logProbability]
  cases hfilled : ngram.substitute name with
  | error e => simp
  | ok filled =>
    have hlikely : renamer.Likely filled ↔
        ¬ (Arithmetic.isFinite (renamer.model.probability filled) = false ∨
          renamer.model.probability filled ≤ Arithmetic.ofNat 0) := by
      rw [Likely, not_or, Bool.not_eq_false]
    simp only [Except.ok.injEq, exists_eq_left', hlikely]
    split
    next h => simp [h]
    next h => simp [h]

/-- A sum is computed to its end if none of its terms is missing. -/
private theorem exists_foldlM_iff {ε β γ : Type} (term : β → Except ε γ) (add : γ → β → γ → γ)
    (entries : List β) (sum : γ) :
    (∃ total, entries.foldlM (fun sum e => do return add sum e (← term e)) sum = .ok total) ↔
      ∀ e ∈ entries, ∃ value, term e = .ok value := by
  induction entries generalizing sum with
  | nil => simp [pure, Except.pure]
  | cons e rest ih =>
    rw [List.foldlM_cons, List.forall_mem_cons]
    cases hterm : term e with
    | error e' => simp [bind, Except.bind]
    | ok value => simpa [bind, Except.bind, pure, Except.pure] using ih (add sum e value)

/-- Contexts give a sum if each of them gives a logarithm. -/
theorem exists_logLikelihood_iff :
    (∃ bits, renamer.logLikelihood contexts name = .ok bits) ↔
      ∀ ngram ∈ contexts.keys, ∃ bits, renamer.logProbability name ngram = .ok bits := by
  rw [SortedMap.keys, List.forall_mem_map]
  exact exists_foldlM_iff (fun e : NGram × Nat => renamer.logProbability name e.1)
    (fun sum e bits => sum + bits * Arithmetic.ofNat e.2) contexts.entries _

variable {scope : Option Scope}

/-- A name is scored if all that comes of the contexts with it is likely. -/
theorem exists_scoreCandidate_iff (hopen : AllOpen contexts) :
    (∃ r, renamer.scoreCandidate contexts scope name = .ok r) ↔
      ∀ ngram ∈ contexts.keys, ∀ filled, ngram.substitute name = .ok filled →
        renamer.Likely filled := by
  have hscore : (∃ r, renamer.scoreCandidate contexts scope name = .ok r) ↔
      ∃ bits, renamer.logLikelihood contexts name = .ok bits := by
    unfold scoreCandidate
    cases renamer.logLikelihood contexts name <;> simp [Except.map]
  rw [hscore, exists_logLikelihood_iff]
  refine forall₂_congr fun ngram hngram => exists_logProbability_iff.trans ?_
  -- A name can be put into an open context in one way.
  obtain ⟨filled, hfilled⟩ := hopen.exists_substitute hngram name
  simp [hfilled]

/-- A renaming that is scored has the name it was scored for. -/
theorem name_of_scoreCandidate {r : Renaming α}
    (h : renamer.scoreCandidate contexts scope name = .ok r) : r.name = name := by
  unfold scoreCandidate at h
  cases hbits : renamer.logLikelihood contexts name with
  | error e =>
    rw [hbits] at h
    cases h
  | ok bits =>
    rw [hbits] at h
    cases h
    split <;> rfl

/-! ### Without contexts -/

/-- The context of a name by itself is the bare wildcard. -/
theorem keys_loneContext : loneContext.keys = [.single wildcard] := rfl

/-- The bare wildcard is open, so a name can be put in. -/
theorem allOpen_loneContext : AllOpen loneContext := by
  intro ngram hngram
  rw [keys_loneContext, List.mem_singleton] at hngram
  subst hngram
  exact ⟨wildcard, List.mem_singleton_self _, isOpen_wildcard⟩

/-- The name put into the lone wildcard is the name by itself. -/
theorem substitute_single_wildcard (name : String) :
    (NGram.single wildcard).substitute name = .ok (.single name) := by
  rw [NGram.substitute_eq_ok_iff]
  refine ⟨⟨wildcard, List.mem_singleton_self _, isOpen_wildcard⟩, ?_⟩
  simp [NGram.single, isOpen_wildcard, NGram.fillToken_wildcard]

/-- Contexts are empty if they have no n-gram. -/
theorem isEmpty_eq_true_iff : contexts.isEmpty = true ↔ contexts.keys = [] := by
  rw [SortedMap.isEmpty, List.isEmpty_iff, SortedMap.keys, List.map_eq_nil_iff]

/-- Contexts with an n-gram are not empty. -/
theorem isEmpty_eq_false_of_mem {ngram : NGram} (h : ngram ∈ contexts.keys) :
    contexts.isEmpty = false := by
  rw [← Bool.not_eq_true, isEmpty_eq_true_iff]
  exact List.ne_nil_of_mem h

/-- If contexts are open, so is what is scored in their place. -/
theorem allOpen_scoredContexts (h : AllOpen contexts) : AllOpen (scoredContexts contexts) := by
  rw [scoredContexts]
  split
  · exact allOpen_loneContext
  · exact h

/-- The contexts that are scored give a name a score if it is `Scorable`. -/
theorem exists_scoreCandidate_scoredContexts_iff (scope : Option Scope) (hopen : AllOpen contexts) :
    (∃ r, renamer.scoreCandidate (scoredContexts contexts) scope name = .ok r) ↔
      renamer.Scorable contexts name := by
  rw [exists_scoreCandidate_iff (allOpen_scoredContexts hopen), Scorable, scoredContexts]
  split
  next hempty =>
    rw [isEmpty_eq_true_iff] at hempty
    simp [hempty, keys_loneContext, substitute_single_wildcard, isEmpty_eq_true_iff]
  next hne => simp [hne]

/-! ### Rankings -/

/-- A result is kept as an option if it is no error. -/
private theorem toOption_eq_some_iff {ε β : Type} {result : Except ε β} {value : β} :
    result.toOption = some value ↔ result = .ok value := by
  cases result <;> simp [Except.toOption]

/-- A ranking holds the scored names of its candidates, in another order. -/
theorem perm_scoreCandidates (renamer : Renamer α) (contexts : ContextSet)
    (candidates : SortedSet String) (scope : Option Scope) :
    (renamer.scoreCandidates contexts candidates scope).toList.Perm
      (candidates.toList.filterMap fun name =>
        (renamer.scoreCandidate (scoredContexts contexts) scope name).toOption) := by
  refine SortedSet.perm_ofList (List.Pairwise.filterMap _ ?_ (SortedSet.nodup_toList candidates))
  -- Names that differ make renamings that differ in the order of rankings.
  intro name name' hne r hr r' hr' heq
  refine hne ?_
  rw [← name_of_scoreCandidate (toOption_eq_some_iff.1 hr),
    ← name_of_scoreCandidate (toOption_eq_some_iff.1 hr')]
  exact Renaming.name_eq_of_compare_eq heq

/-- What holds of a ranking that was made on some contexts. -/
structure RanksScorable (renamer : Renamer α) (contexts : ContextSet) (current : String)
    (scope : Option Scope) (ranking : Ranking α) : Prop where
  /-- A name can be put into every context. -/
  exists_substitute : ∀ ngram ∈ contexts.keys, ∀ name, ∃ filled, ngram.substitute name = .ok filled
  /-- The names of the pool that have a score are ranked, and no others. -/
  mem_names_iff : ∀ name, name ∈ ranking.toList.map Renaming.name ↔
    name ∈ (renamer.candidatePool contexts current).toList ∧ renamer.Scorable contexts name
  /-- No name is ranked twice. -/
  nodup_names : (ranking.toList.map Renaming.name).Nodup
  /-- Every renaming has the score of its name. -/
  score_eq : ∀ r ∈ ranking.toList,
    renamer.scoreCandidate (scoredContexts contexts) scope r.name = .ok r
  /-- Renamings ascend by score, and by name where scores are equal. -/
  ascending : ranking.toList.Pairwise fun a b => Arithmetic.order a.score b.score = .lt ∨
    Arithmetic.order a.score b.score = .eq ∧ a.name < b.name
  length_le : ranking.toList.length ≤ renamer.config.maxCandidates + 2
  /-- A model that finds everything likely ranks the current name and the unknown symbol. -/
  mem_of_likely : (∀ ngram, renamer.Likely ngram) →
    current ∈ ranking.toList.map Renaming.name ∧ unknownSymbol ∈ ranking.toList.map Renaming.name

/-- The renamings of a ranking are the candidates that were scored, each with its own score. -/
theorem mem_scoreCandidates_iff {candidates : SortedSet String} {r : Renaming α} :
    r ∈ (renamer.scoreCandidates contexts candidates scope).toList ↔
      r.name ∈ candidates.toList ∧
        renamer.scoreCandidate (scoredContexts contexts) scope r.name = .ok r := by
  rw [(perm_scoreCandidates renamer contexts candidates scope).mem_iff, List.mem_filterMap]
  constructor
  · rintro ⟨name, hname, hr⟩
    rw [toOption_eq_some_iff] at hr
    rw [name_of_scoreCandidate hr]
    exact ⟨hname, hr⟩
  · rintro ⟨hname, hr⟩
    exact ⟨r.name, hname, toOption_eq_some_iff.2 hr⟩

/-- A ranking on open contexts holds the candidates that can be scored and nothing else. -/
theorem ranksScorable_rankOn (hopen : AllOpen contexts) (current : String) :
    renamer.RanksScorable contexts current scope (renamer.rankOn contexts current scope) := by
  have hperm := perm_scoreCandidates renamer contexts (renamer.candidatePool contexts current) scope
  have hmem : ∀ name, name ∈ (renamer.rankOn contexts current scope).toList.map Renaming.name ↔
      name ∈ (renamer.candidatePool contexts current).toList ∧ renamer.Scorable contexts name := by
    intro name
    rw [rankOn, List.mem_map, ← exists_scoreCandidate_scoredContexts_iff scope hopen]
    constructor
    · rintro ⟨r, hr, rfl⟩
      obtain ⟨hname, hscore⟩ := mem_scoreCandidates_iff.1 hr
      exact ⟨hname, r, hscore⟩
    · rintro ⟨hname, r, hscore⟩
      have hr := name_of_scoreCandidate hscore
      exact ⟨r, mem_scoreCandidates_iff.2 ⟨hr ▸ hname, hr.symm ▸ hscore⟩, hr⟩
  refine {
    exists_substitute := fun ngram hngram => hopen.exists_substitute hngram
    mem_names_iff := hmem
    nodup_names := ?_
    score_eq := fun r hr => (mem_scoreCandidates_iff.1 hr).2
    ascending := (renamer.rankOn contexts current scope).ascending.imp
      Renaming.compare_eq_lt_iff.1
    length_le := ?_
    mem_of_likely := ?_ }
  · -- The score of a name is one renaming, and that is listed once.
    refine List.Nodup.map_on (fun a ha b hb hab => ?_) (SortedSet.nodup_toList _)
    have hscore := (mem_scoreCandidates_iff.1 ha).2
    rw [hab, (mem_scoreCandidates_iff.1 hb).2] at hscore
    exact (Except.ok.inj hscore).symm
  · calc (renamer.rankOn contexts current scope).toList.length
        ≤ (renamer.candidatePool contexts current).toList.length := by
          rw [rankOn, hperm.length_eq]
          exact List.length_filterMap_le _ _
      _ ≤ renamer.config.maxCandidates + 2 := length_candidatePool_le renamer contexts current
  · intro hlikely
    have hscorable : ∀ name, renamer.Scorable contexts name := fun name =>
      ⟨fun _ _ filled _ => hlikely filled, fun _ => hlikely _⟩
    rw [hmem, hmem, mem_candidatePool_iff, mem_candidatePool_iff]
    exact ⟨⟨.inr (.inl rfl), hscorable _⟩, ⟨.inl rfl, hscorable _⟩⟩

/-! ### The three rankings -/

/-- A ranking in a scope with tokens is one on the contexts of the name there, which are open. -/
theorem ranksScorable_rank (scope : Scope) (identifier : String) {tokens : List String}
    (htokens : renamer.tokenizer.texts scope.snippet = .ok tokens) :
    renamer.RanksScorable (nameContexts renamer.model.order identifier tokens) identifier
      (some scope) (renamer.rank scope identifier) := by
  rw [rank, snippetContexts_eq_ok htokens]
  exact ranksScorable_rankOn (allOpen_nameContexts _ _ _) _

/-- **A ranking holds exactly the candidates that have a score.** Take any model that looks at a
token at least, with any tokenizer, priors, mode and settings. Three rankings list the names of
their pool that the model finds likely in all contexts, as `RanksScorable` says: that of a name in
a scope whose snippet has tokens, that of the name at some positions, and that of the token at one
position. In the last two there are contexts if a position is one of the list; for the token at one
position, that and the order together have to be below `2 ^ 64`. -/
theorem ranking_of_scorable_candidates (renamer : Renamer α) (horder : 1 ≤ renamer.model.order) :
    (∀ (scope : Scope) (identifier : String) (tokens : List String),
      renamer.tokenizer.texts scope.snippet = .ok tokens →
      ∃ contexts, renamer.snippetContexts scope.snippet identifier = .ok contexts ∧
        renamer.RanksScorable contexts identifier (some scope) (renamer.rank scope identifier)) ∧
    (∀ (tokens : List String) (positions : SortedSet Nat) (current : String),
      (∃ position ∈ positions.toList, position < tokens.length) →
      let contexts := contextsAt renamer.model.order (maskPositions positions tokens) positions
      contexts.isEmpty = false ∧
        renamer.RanksScorable contexts current none (renamer.rankAt tokens positions current)) ∧
    (∀ (tokens : List String) (index : Nat) (current : String), tokens[index]? = some current →
      index + renamer.model.order < 2 ^ 64 →
      let contexts := formattingContexts renamer.model.order index tokens
      contexts.isEmpty = false ∧
        renamer.RanksScorable contexts current none (renamer.rankTokenAt tokens index)) := by
  refine ⟨?_, ?_, ?_⟩
  · -- A scope is ranked on the contexts of its snippet.
    intro scope identifier tokens htokens
    exact ⟨_, snippetContexts_eq_ok htokens, ranksScorable_rank scope identifier htokens⟩
  · -- Masking keeps the number of tokens, so a position in the text is one in the masked text.
    rintro tokens positions current ⟨position, hmem, hlt⟩
    rw [← length_maskPositions positions] at hlt
    obtain ⟨ngram, hngram⟩ := exists_mem_contextsAt horder hmem hlt
    exact ⟨isEmpty_eq_false_of_mem hngram,
      ranksScorable_rankOn (allOpen_contextsAt_maskPositions _ _ _) _⟩
  · -- Where `index + order` fits a word, a window ends at the index itself.
    intro tokens index current hget hfits
    obtain ⟨ngram, hngram⟩ :=
      exists_mem_formattingContexts horder (List.getElem?_eq_some_iff.1 hget).1 hfits
    refine ⟨isEmpty_eq_false_of_mem hngram, ?_⟩
    rw [rankTokenAt, hget]
    exact ranksScorable_rankOn (allOpen_formattingContexts horder _ _) _

/-- The names of a ranking, from those of its pool. -/
theorem RanksScorable.mem_iff_of_pool {current : String} {ranking : Ranking α}
    (h : renamer.RanksScorable contexts current scope ranking) {pool names : List String}
    (hpool : (renamer.candidatePool contexts current).toList = pool)
    (hnames : (∀ name ∈ pool, renamer.Scorable contexts name ↔ name ∈ names) ∧
      ∀ name ∈ names, name ∈ pool) (name : String) :
    name ∈ ranking.toList.map Renaming.name ↔ name ∈ names := by
  rw [h.mem_names_iff, hpool]
  constructor
  · exact fun hname => (hnames.1 name hname.1).1 hname.2
  · exact fun hname => ⟨hnames.2 name hname, (hnames.1 name (hnames.2 name hname)).2 hname⟩

/-- Proposes two names, and finds everything with one of them impossible. -/
def fussyRenamer : Renamer Float where
  model := {
    order := 2
    probability := fun ngram => if "bad" ∈ ngram.tokens then 0 else 0.5
    fillers := fun _ _ => .ofCounts [("bad", 2), ("good", 1)]
    isUnknown := fun token => token = unknownSymbol }
  tokenizer := .code
  priors := []
  config := {}
  mode := .crossEntropy

/-- The name that the model finds impossible is not ranked, neither as a filler nor as the name
that stands there. -/
theorem ranking_of_scorable_candidates_fussy :
    1 ≤ fussyRenamer.model.order ∧
    fussyRenamer.tokenizer.texts "int x ;" = .ok ["int", "x", ";"] ∧
    (∀ name, name ∈ (fussyRenamer.rank (.ofSnippet "int x ;" .var) "x").toList.map Renaming.name ↔
      name ∈ [unknownSymbol, "good", "x"]) ∧
    (∀ name, name ∈ (fussyRenamer.rankAt ["x", "x"] (.ofList [1, 7]) "x").toList.map Renaming.name ↔
      name ∈ [unknownSymbol, "good", "x"]) ∧
    (∀ name, name ∈ (fussyRenamer.rankTokenAt ["int", "bad"] 1).toList.map Renaming.name ↔
      name ∈ [unknownSymbol, "good"]) := by
  have htokens : fussyRenamer.tokenizer.texts "int x ;" = .ok ["int", "x", ";"] := by cbv
  -- The candidate `bad` has probability zero, so it is in the pool but not in the ranking.
  have hpool (contexts : ContextSet) : (fussyRenamer.candidatePool contexts "x").toList
      = [unknownSymbol, "bad", "good", "x"] := by cbv
  have hbad (contexts : ContextSet) : (fussyRenamer.candidatePool contexts "bad").toList
      = [unknownSymbol, "bad", "good"] := by cbv
  obtain ⟨hscope, hpositions, hindex⟩ :=
    ranking_of_scorable_candidates fussyRenamer (by decide)
  refine ⟨by decide, htokens, ?_, ?_, ?_⟩
  · obtain ⟨contexts, hcontexts, hranks⟩ := hscope (.ofSnippet "int x ;" .var) "x" _ htokens
    have heq := Except.ok.inj ((snippetContexts_eq_ok htokens).symm.trans hcontexts)
    subst heq
    refine hranks.mem_iff_of_pool (hpool _) ?_
    decide +kernel
  · obtain ⟨-, hranks⟩ := hpositions ["x", "x"] (.ofList [1, 7]) "x" ⟨1, by decide, by decide⟩
    refine hranks.mem_iff_of_pool (hpool _) ?_
    decide +kernel
  · obtain ⟨-, hranks⟩ := hindex ["int", "bad"] 1 "bad" rfl (by decide)
    refine hranks.mem_iff_of_pool (hbad _) ?_
    decide +kernel

end NaturalNames.Renamer
