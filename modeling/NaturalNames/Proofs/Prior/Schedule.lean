import NaturalNames.Prior
import NaturalNames.Proofs.Machine
import NaturalNames.Proofs.Prior.Distribution

/-!
# `NaturalNames.Proofs.Prior.Schedule`: a prior depends on what was found alone

A prior is built from a corpus in pieces: every chunk of units gets a prior of its own, and the
priors are merged. The result is the prior of all occurrences, observed one after the other. How the
units are listed and cut has no influence on it, and units that the extractor fails on have none
either.

Both kinds of prior are built the same way, so the argument is made once. `LearntInParts` says what
holds of such a prior, and `learntInParts` what that rests on: merging two priors is observing the
occurrences of both, and the order of observations does not matter. For the distributions that a
prior is made of these are `Distribution.merge_record` and `Distribution.record_perm`. A prior
counts a fixed observation in each of its distributions, or none for an occurrence that it has no
use for.
-/

set_option autoImplicit false

namespace NaturalNames

/-! ### What is found in a corpus -/

/-- The extractor finds no occurrences in a unit, as it fails. -/
def ScopeExtractor.Fails (extractor : ScopeExtractor) (unit : CorpusUnit) : Prop :=
  ∃ e, extractor.extract unit.source = .error e

/-- The lists of occurrences that the extractor finds, one for each unit that it does not fail
on. -/
def ScopeExtractor.found (extractor : ScopeExtractor) (units : List CorpusUnit) :
    List (List Occurrence) :=
  units.filterMap fun unit => (extractor.extract unit.source).toOption

section

variable (extractor : ScopeExtractor)

/-- The occurrences of units are those that were found in each. -/
theorem occurrencesOf_eq_flatten_found (units : List CorpusUnit) :
    occurrencesOf extractor units = (extractor.found units).flatten := by
  rw [occurrencesOf, ScopeExtractor.found]
  induction units with
  | nil => rfl
  | cons unit rest ih =>
    rw [List.flatMap_cons, List.filterMap_cons, ih]
    cases (extractor.extract unit.source).toOption <;> rfl

/-- Units that are put together have their occurrences put together. -/
theorem occurrencesOf_append (front back : List CorpusUnit) :
    occurrencesOf extractor (front ++ back)
      = occurrencesOf extractor front ++ occurrencesOf extractor back :=
  List.flatMap_append

/-- Units in another order have their occurrences in another order. -/
theorem occurrencesOf_perm {units units' : List CorpusUnit} (h : units.Perm units') :
    (occurrencesOf extractor units).Perm (occurrencesOf extractor units') :=
  h.flatMap_right _

/-- Units that all fail have no occurrences. -/
theorem occurrencesOf_of_forall_fails {units : List CorpusUnit}
    (h : ∀ unit ∈ units, extractor.Fails unit) : occurrencesOf extractor units = [] := by
  rw [occurrencesOf, List.flatMap_eq_nil_iff]
  intro unit hunit
  obtain ⟨e, he⟩ := h unit hunit
  rw [he]
  rfl

end

/-! ### Learning in parts -/

/-- What holds of a prior that is built in parts, from what it is before any observation, what an
observation does to it, and how it is merged with another one. -/
structure LearntInParts {P : Type} (empty : P) (observe : P → Occurrence → P) (merge : P → P → P)
    (build : Machine → ScopeExtractor → List CorpusUnit → Nat → P) : Prop where
  /-- What is built is what comes of observing all that is found, one occurrence after the other. -/
  build_eq : ∀ (machine : Machine) (extractor : ScopeExtractor) (units : List CorpusUnit)
    (factor : Nat),
      build machine extractor units factor = (extractor.found units).flatten.foldl observe empty
  /-- Another machine may build it from the units in another order, with some left out that fail. -/
  build_perm : ∀ (extractor : ScopeExtractor) (units units' failing : List CorpusUnit),
    (∀ unit ∈ failing, extractor.Fails unit) → units.Perm (units' ++ failing) →
      ∀ (machine machine' : Machine) (factor factor' : Nat),
        build machine extractor units factor = build machine' extractor units' factor'
  /-- Occurrences may be observed elsewhere and merged in. -/
  merge_eq : ∀ front back : List Occurrence,
    merge (front.foldl observe empty) (back.foldl observe empty)
      = (front ++ back).foldl observe empty

/-- A prior is learnt in parts if building merges what chunks give, and merging agrees with
observing one part behind the other. -/
theorem learntInParts {P : Type} {empty : P} {observe : P → Occurrence → P} {merge : P → P → P}
    {build : Machine → ScopeExtractor → List CorpusUnit → Nat → P}
    (hbuild : ∀ machine extractor units factor, build machine extractor units factor
      = (machine.mapChunks factor (fun chunk => (occurrencesOf extractor chunk).foldl observe empty)
          units).foldl merge empty)
    (hmerge : ∀ front back : List Occurrence,
      merge (front.foldl observe empty) (back.foldl observe empty)
        = (front ++ back).foldl observe empty)
    (hperm : ∀ occurrences occurrences' : List Occurrence, occurrences.Perm occurrences' →
      occurrences.foldl observe empty = occurrences'.foldl observe empty) :
    LearntInParts empty observe merge build := by
  have hone : ∀ machine extractor units factor, build machine extractor units factor
      = (occurrencesOf extractor units).foldl observe empty := by
    intro machine extractor units factor
    rw [hbuild]
    -- Merging in the prior of one more chunk is observing one chunk more.
    exact machine.foldl_mapChunks factor _ merge
      (fun front => (occurrencesOf extractor front).foldl observe empty)
      (fun front chunk => by rw [hmerge, occurrencesOf_append]) units
  constructor
  case build_eq =>
    intro machine extractor units factor
    rw [hone, occurrencesOf_eq_flatten_found]
  case build_perm =>
    intro extractor units units' failing hfails hunits machine machine' factor factor'
    have hfound := occurrencesOf_perm extractor hunits
    rw [occurrencesOf_append, occurrencesOf_of_forall_fails extractor hfails, List.append_nil]
      at hfound
    rw [hone, hone, hperm _ _ hfound]
  case merge_eq => exact hmerge

/-! ### By syntactic role -/

namespace GrammarPrior

/-- The grammar prior records each name under its two categories. -/
theorem observeAll_eq_record (prior : GrammarPrior) (occurrences : List Occurrence) :
    prior.observeAll occurrences =
      ⟨prior.byCategory.record (occurrences.map fun o => (o.name, o.scope.category, 1)),
        prior.byParentCategory.record
          (occurrences.map fun o => (o.name, o.scope.parentCategory, 1))⟩ := by
  rw [observeAll]
  induction occurrences generalizing prior with
  | nil => rfl
  | cons o rest ih =>
    rw [List.foldl_cons, ih]
    rfl

/-- The grammar prior is learnt in parts. -/
theorem learntInParts : LearntInParts empty observe merge build := by
  apply NaturalNames.learntInParts (fun _ _ _ _ => rfl)
  · intro front back
    show (empty.observeAll front).merge (empty.observeAll back) = empty.observeAll (front ++ back)
    simp only [observeAll_eq_record, merge, empty, List.map_append, Distribution.record_append]
    rw [Distribution.merge_record (.record .empty _), Distribution.merge_record (.record .empty _)]
  · intro occurrences occurrences' hperm
    show empty.observeAll occurrences = empty.observeAll occurrences'
    rw [observeAll_eq_record, observeAll_eq_record, empty,
      Distribution.record_perm .empty (hperm.map _), Distribution.record_perm .empty (hperm.map _)]

end GrammarPrior

/-! ### By type -/

namespace TypePrior

/-- The type prior records each name under its type, if it has one. -/
theorem observeAll_eq_record (prior : TypePrior) (occurrences : List Occurrence) :
    prior.observeAll occurrences = ⟨prior.byType.record (occurrences.filterMap fun o =>
      o.scope.inferredType.map fun type => (o.name, type, 1))⟩ := by
  rw [observeAll]
  induction occurrences generalizing prior with
  | nil => rfl
  | cons o rest ih =>
    rw [List.foldl_cons, ih, List.filterMap_cons, observe]
    cases o.scope.inferredType <;> rfl

/-- The type prior is learnt in parts. -/
theorem learntInParts : LearntInParts empty observe merge build := by
  apply NaturalNames.learntInParts (fun _ _ _ _ => rfl)
  · intro front back
    show (empty.observeAll front).merge (empty.observeAll back) = empty.observeAll (front ++ back)
    simp only [observeAll_eq_record, merge, empty, List.filterMap_append,
      Distribution.record_append]
    rw [Distribution.merge_record (.record .empty _)]
  · intro occurrences occurrences' hperm
    show empty.observeAll occurrences = empty.observeAll occurrences'
    rw [observeAll_eq_record, observeAll_eq_record, empty,
      Distribution.record_perm .empty (hperm.filterMap _)]

end TypePrior

/-- **Priors are learnt in parts.** Whatever the machine and the chunk factor, both priors are those
of all occurrences in the units that the extractor does not fail on, observed one after the other.
Another order of the units gives the same priors, and so does a corpus without some of the failing
units. What two lists of occurrences give, merged, is what both give, observed. -/
theorem priors_learntInParts :
    LearntInParts GrammarPrior.empty GrammarPrior.observe GrammarPrior.merge GrammarPrior.build ∧
      LearntInParts TypePrior.empty TypePrior.observe TypePrior.merge TypePrior.build :=
  ⟨GrammarPrior.learntInParts, TypePrior.learntInParts⟩

/-- An extractor that fails on `?`, and finds every other unit used as a number and without a
type. -/
def wholeNames : ScopeExtractor where
  extract source :=
    if source = "?" then .error (.scopeExtraction "question mark")
    else .ok [⟨{ Scope.ofSnippet "let" .var with inferredType := some "u8" }, source⟩,
      ⟨Scope.ofSnippet "use" .var, source⟩]

/-- Three units on two processors and two of them on one. The unit that is left out fails, and of
the others the use without a type is not among the names by type. -/
theorem priors_learntInParts_wholeNames :
    let units : List CorpusUnit := [⟨"first", "n"⟩, ⟨"second", "?"⟩, ⟨"third", "k"⟩]
    let kept : List CorpusUnit := [⟨"third", "k"⟩, ⟨"first", "n"⟩]
    wholeNames.Fails ⟨"second", "?"⟩ ∧
      TypePrior.build (.inTurn 2) wholeNames units 0
        = TypePrior.build (.inTurn 1) wholeNames kept 7 ∧
      TypePrior.build (.inTurn 2) wholeNames units 0
        = ⟨(Distribution.empty.add "n" "u8").add "k" "u8"⟩ ∧
      GrammarPrior.build (.inTurn 2) wholeNames units 0
        = GrammarPrior.build (.inTurn 1) wholeNames kept 7 ∧
      (GrammarPrior.build (.inTurn 2) wholeNames units 0).byCategory.count "n" "" = 2 := by
  intro units kept
  have hfails : wholeNames.Fails ⟨"second", "?"⟩ := ⟨_, rfl⟩
  have hfailing : ∀ unit ∈ [(⟨"second", "?"⟩ : CorpusUnit)], wholeNames.Fails unit := by
    simpa using hfails
  have hperm : units.Perm (kept ++ [⟨"second", "?"⟩]) := by decide
  obtain ⟨hgrammar, htype⟩ := priors_learntInParts
  refine ⟨hfails, htype.build_perm _ _ _ _ hfailing hperm _ _ _ _, ?_,
    hgrammar.build_perm _ _ _ _ hfailing hperm _ _ _ _, ?_⟩
  · -- The counts themselves, read off the sequential form.
    rw [htype.build_eq]
    decide
  · rw [hgrammar.build_eq]
    decide

end NaturalNames
