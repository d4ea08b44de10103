import NaturalNames.Backoff.Mixture
import NaturalNames.Proofs.Backoff.Fillers
import NaturalNames.Proofs.Backoff.LongestSuffix
import NaturalNames.Proofs.NGram.Window
import NaturalNames.Proofs.Text.Wrapped

/-!
# `NaturalNames.Proofs.Backoff.Marks`: contexts that are open at another mark

A search for names is told by which mark it knows the open tokens of the contexts. So a caller might
put a mark of its own in place of the wildcard. Which names does it get?

The mark serves to find the open tokens and for nothing else: two marks that occur in the same
tokens find the same names (`fillers_congr`). With a new mark in place of the wildcard the search
goes to the same token and looks behind the same history (`findIdx?_withMark`, `take_withMark`), but
it cuts names out at the wildcard, and that is no longer there. What is found is what the contexts
find if names are cut out of their open tokens with the mark in them (`fillers_of_marked`). As a
rule this is nothing: no wildcard is left by a mark without `%`.
-/

set_option autoImplicit false

namespace NaturalNames

open Training

/-- The names that a language model finds are those of a model of n-grams: it is that model, or a
mixture with that model as its local one. -/
inductive DrawsNamesFrom {α : Type} [Arithmetic α] (model : BackoffModel) : LanguageModel α → Prop
  | alone : DrawsNamesFrom model model.languageModel
  | mixed (mixture : Mixture) (h : mixture.localModel = model) :
      DrawsNamesFrom model mixture.languageModel

/-- A mixture finds the names that its local model finds. -/
theorem DrawsNamesFrom.fillers_eq {α : Type} [Arithmetic α] {model : BackoffModel}
    {language : LanguageModel α} (h : DrawsNamesFrom model language) :
    language.fillers = model.fillers := by
  cases h with
  | alone => rfl
  | mixed mixture h =>
    subst h
    rfl

/-! ### A mark in place of the wildcard -/

/-- Tests that agree on the elements of a list find the same one first. -/
theorem findIdx?_congr {β : Type} {p q : β → Bool} {list : List β} (h : ∀ x ∈ list, p x = q x) :
    list.findIdx? p = list.findIdx? q := by
  induction list with
  | nil => rfl
  | cons x rest ih =>
    rw [List.findIdx?_cons, List.findIdx?_cons, h x List.mem_cons_self,
      ih fun y hy => h y (List.mem_cons_of_mem x hy)]

namespace NGram

/-- The n-gram with a mark in place of the wildcard. -/
def withMark (mark : String) (ngram : NGram) : NGram :=
  ngram.mapTokens (Text.replace wildcard mark)

/-- A closed token cannot be cut at the wildcard. -/
theorem splitFirst_of_closed {token : String} (h : isOpen token = false) :
    Text.splitFirst wildcard.toList token.toList = none := by
  rwa [isOpen, Text.occurs, Option.isSome_eq_false_iff, Option.isNone_iff_eq_none] at h

/-- A token without a wildcard has nothing to be replaced. -/
theorem replace_wildcard_of_closed {token : String} (h : isOpen token = false) (mark : String) :
    Text.replace wildcard mark token = token := by
  have hwildcard : wildcard.toList ≠ [] := by decide
  rw [Text.replace, Text.replaceAll_of_uncut hwildcard _ (splitFirst_of_closed h),
    String.ofList_toList]

/-- Nothing is taken out of tokens with a template that has no wildcard. -/
theorem fill?_of_closed {template : String} (h : isOpen template = false) (token : String) :
    fill? template token = none := by
  rw [fill?, Text.cutFirst, splitFirst_of_closed h]
  rfl

/-- A mark without `%` that is not in a token leaves no wildcard in it. -/
theorem isOpen_replace_eq_false {mark token : String} (hpercent : '%' ∉ mark.toList)
    (hmark : Text.occurs mark token = false) :
    isOpen (Text.replace wildcard mark token) = false := by
  cases hopen : isOpen token with
  | false => rw [replace_wildcard_of_closed hopen, hopen]
  | true =>
    have hwildcard : wildcard.toList = Text.wrap ['W', 'C'] := by decide
    rw [isOpen, Text.occurs_iff, hwildcard] at hopen
    rw [← Bool.not_eq_true, Text.occurs_iff] at hmark
    rw [isOpen, ← Bool.not_eq_true, Text.occurs_iff, Text.replace, String.toList_ofList, hwildcard]
    exact Text.not_infix_replaceAll_junk hpercent (fun h => hmark (h.trans hopen)) token.toList

section

variable {mark : String} {ngram : NGram}
  (hmark : ∀ token ∈ ngram.tokens, Text.occurs mark token = false)

include hmark

/-- A mark that is new stands where the wildcard stood. -/
theorem findIdx?_withMark :
    (ngram.withMark mark).tokens.findIdx? (Text.occurs mark) = ngram.wildcardPosition? := by
  -- Open tokens hold the mark now. Closed ones are as they were and never held it.
  have hsame : ∀ token ∈ ngram.tokens,
      (Text.occurs mark ∘ Text.replace wildcard mark) token = isOpen token := by
    intro token htoken
    rw [Function.comp_apply]
    cases hopen : isOpen token with
    | true => exact Text.occurs_replace hopen
    | false =>
      rw [replace_wildcard_of_closed hopen]
      exact hmark token htoken
  show (ngram.tokens.map _).findIdx? _ = ngram.tokens.findIdx? isOpen
  rw [List.findIdx?_map]
  exact findIdx?_congr hsame

omit hmark in
/-- The tokens in front of the first open one stay as they are. -/
theorem take_withMark {position : Nat} (h : ngram.wildcardPosition? = some position) :
    (ngram.withMark mark).tokens.take position = ngram.tokens.take position := by
  obtain ⟨hlt, -, hbefore⟩ := List.findIdx?_eq_some_iff_getElem.1 h
  show (ngram.tokens.map _).take position = _
  rw [← List.map_take]
  refine (List.map_congr_left fun token htoken => ?_).trans (List.map_id _)
  obtain ⟨i, hi, rfl⟩ := List.mem_take_iff_getElem.1 htoken
  rw [Nat.lt_min] at hi
  exact replace_wildcard_of_closed (by simpa using hbefore i hi.1) mark

end

end NGram

/-- The contexts with a mark in place of the wildcard. Contexts that become the same add up. -/
def ContextSet.withMark (mark : String) (contexts : ContextSet) : ContextSet :=
  .ofCounts (contexts.entries.map fun e => (e.1.withMark mark, e.2))

namespace BackoffModel

variable (model : BackoffModel)

/-! ### The search with a mark -/

/-- Marks that occur in the same tokens find the same names. -/
theorem fillers_congr {contexts : ContextSet} {mark mark' : String}
    (h : ∀ e ∈ contexts.entries, ∀ token ∈ e.1.tokens,
      Text.occurs mark token = Text.occurs mark' token) :
    model.fillers contexts mark = model.fillers contexts mark' := by
  have hfound : ∀ e ∈ contexts.entries,
      model.fillersIn mark e.1 e.2 = model.fillersIn mark' e.1 e.2 := by
    intro e he
    rw [fillersIn, fillersIn, findIdx?_congr (h e he)]
  rw [fillers, fillers]
  exact congrArg Tally.ofCounts (List.flatMap_congr hfound)

/-- The weight of an n-gram multiplies what it finds. -/
theorem fillersIn_eq_map (mark : String) (ngram : NGram) (weight : Nat) :
    model.fillersIn mark ngram weight
      = (model.fillersIn mark ngram 1).map fun e => (e.1, e.2 * weight) := by
  rw [fillersIn, fillersIn]
  split
  next => rfl
  next position hposition =>
    split
    next => rfl
    next =>
      rw [List.map_filterMap]
      refine List.filterMap_congr fun e _ => ?_
      rw [Option.map_map]
      simp only [Function.comp_def, Nat.mul_one]

/-- Contexts that are given with their weights, some of them more than once, find what each
finds. -/
theorem fillers_ofCounts (counts : List (NGram × Nat)) (mark : String) :
    model.fillers (.ofCounts counts) mark
      = .ofCounts (counts.flatMap fun e => model.fillersIn mark e.1 e.2) := by
  have h := Tally.ofCounts_flatMap_entries (fun ngram => model.fillersIn mark ngram 1) counts
  simp only [← fillersIn_eq_map] at h
  exact h

/-! ### Names cut out with another template -/

/-- The names that are seen where one n-gram is open, if the template that they are cut out with is
made of the open token by `frame`. -/
def fillersInFrame (frame : String → String) (ngram : NGram) (weight : Nat) : List (String × Nat) :=
  match ngram.wildcardPosition? with
  | none => []
  | some position =>
    if position = 0 then []
    else
      let template := frame ((ngram.tokens[position]?).getD "")
      let seen := model.counts.continuations (model.idsOf (model.history ngram.tokens position))
      seen.filterMap fun (id, n) => (model.nameOf? template id).map fun name => (name, n * weight)

/-- The names that contexts find with the templates that `frame` makes of their open tokens. -/
def fillersFramed (frame : String → String) (contexts : ContextSet) : Tally String :=
  .ofCounts (contexts.entries.flatMap fun e => model.fillersInFrame frame e.1 e.2)

/-- No name is taken out of a closed token. -/
theorem nameOf?_of_closed {template : String} (h : NGram.isOpen template = false) (id : TokenId) :
    model.nameOf? template id = none := by
  rw [nameOf?]
  split
  next => rfl
  next =>
    rw [Option.bind_eq_none_iff]
    exact fun token _ => NGram.fill?_of_closed h token

section

variable {mark : String} {ngram : NGram}
  (hmark : ∀ token ∈ ngram.tokens, Text.occurs mark token = false) (weight : Nat)

include hmark

/-- With a mark in place of the wildcard, names are cut out of tokens with the mark in them. -/
theorem fillersIn_withMark :
    model.fillersIn mark (ngram.withMark mark) weight
      = model.fillersInFrame (Text.replace wildcard mark) ngram weight := by
  rw [fillersIn, fillersInFrame, NGram.findIdx?_withMark hmark]
  cases hposition : ngram.wildcardPosition? with
  | none => rfl
  | some position =>
    obtain ⟨hlt, -⟩ := List.findIdx?_eq_some_iff_getElem.1 hposition
    -- The mark stands in the open token and not in front of it, so the history is the old one.
    have htemplate : ((ngram.withMark mark).tokens[position]?).getD ""
        = Text.replace wildcard mark ((ngram.tokens[position]?).getD "") := by
      show ((ngram.tokens.map _)[position]?).getD "" = _
      rw [List.getElem?_map, List.getElem?_eq_getElem hlt]
      rfl
    have hhistory : model.history (ngram.withMark mark).tokens position
        = model.history ngram.tokens position := by
      rw [history, history, NGram.take_withMark hposition]
    simp only [htemplate, hhistory]

/-- With a mark without `%` no name is cut out. -/
theorem fillersInFrame_eq_nil (hpercent : '%' ∉ mark.toList) :
    model.fillersInFrame (Text.replace wildcard mark) ngram weight = [] := by
  rw [fillersInFrame]
  cases hposition : ngram.wildcardPosition? with
  | none => rfl
  | some position =>
    obtain ⟨hlt, -⟩ := List.findIdx?_eq_some_iff_getElem.1 hposition
    have hclosed := NGram.isOpen_replace_eq_false hpercent (hmark _ (List.getElem_mem hlt))
    simp only [List.getElem?_eq_getElem hlt, Option.getD_some, model.nameOf?_of_closed hclosed]
    simp

end

/-- Contexts that are open at a new mark find what they found with the mark in their templates. -/
theorem fillers_withMark {contexts : ContextSet} {mark : String}
    (hmark : ∀ e ∈ contexts.entries, ∀ token ∈ e.1.tokens, Text.occurs mark token = false) :
    model.fillers (contexts.withMark mark) mark
      = model.fillersFramed (Text.replace wildcard mark) contexts := by
  rw [ContextSet.withMark, fillers_ofCounts, List.flatMap_map, fillersFramed]
  exact congrArg Tally.ofCounts
    (List.flatMap_congr fun e he => model.fillersIn_withMark (hmark e he) e.2)

/-- A context that is open behind `a`, and one that is open at its first token. -/
def letterContexts : ContextSet :=
  .ofList [(⟨["b", "a", wildcard], by decide⟩, 3), (⟨[wildcard, "a"], by decide⟩, 5)]

/-- **A mark of one's own finds no names.** Take contexts with a mark in place of the wildcard that
was in none of their tokens. The search looks where the contexts were open, but cuts names out at
the wildcard: it finds what the contexts find with templates that have the mark in them. If the mark
has no `%`, that is nothing.

Whether a token has the mark is all that the search asks of it. It makes no difference whether a
model is searched alone or in a mixture. -/
theorem fillers_of_marked {α : Type} [Arithmetic α] {model : BackoffModel}
    {language : LanguageModel α} (h : DrawsNamesFrom model language) {contexts : ContextSet}
    {mark : String}
    (hmark : ∀ e ∈ contexts.entries, ∀ token ∈ e.1.tokens, Text.occurs mark token = false) :
    let marked := contexts.withMark mark
    language.fillers contexts wildcard = model.fillersFramed id contexts ∧
    language.fillers marked mark = model.fillersFramed (Text.replace wildcard mark) contexts ∧
    ('%' ∉ mark.toList → language.fillers marked mark = .empty) ∧
    ∀ mark', (∀ e ∈ marked.entries, ∀ token ∈ e.1.tokens,
        Text.occurs mark' token = Text.occurs mark token) →
      language.fillers marked mark' = language.fillers marked mark := by
  intro marked
  rw [h.fillers_eq]
  refine ⟨rfl, model.fillers_withMark hmark, fun hpercent => ?_,
    fun mark' hsame => model.fillers_congr hsame⟩
  -- A mark without a percent sign leaves no wildcard, so that nothing is cut out anywhere.
  rw [model.fillers_withMark hmark, fillersFramed, List.flatMap_eq_nil_iff.2]
  · rfl
  · exact fun e he => model.fillersInFrame_eq_nil (hmark e he) e.2 hpercent

/-- In the corpus of letters `=` came behind `a` twice. Contexts that are open behind `a` find it at
the wildcard and lose it at another mark, in a mixture too. -/
theorem fillers_of_marked_hole :
    let model := (inOneGo letters pairConfig pairUnits).model
    let mixture : Mixture := ⟨model, model, Mixture.defaultWeight⟩
    let language : LanguageModel Float := mixture.languageModel
    DrawsNamesFrom model language ∧
      (∀ e ∈ letterContexts.entries, ∀ token ∈ e.1.tokens, Text.occurs "hole" token = false) ∧
      '%' ∉ "hole".toList ∧
      language.fillers (letterContexts.withMark "hole") "hole" = .empty ∧
      (∀ e ∈ (letterContexts.withMark "hole").entries, ∀ token ∈ e.1.tokens,
        Text.occurs "ole" token = Text.occurs "hole" token) ∧
      language.fillers (letterContexts.withMark "hole") "ole"
        = language.fillers (letterContexts.withMark "hole") "hole" ∧
      model.fillersFramed id letterContexts ≠ .empty := by
  intro model mixture language
  have hlanguage : DrawsNamesFrom model language := .mixed mixture rfl
  have hmark : ∀ e ∈ letterContexts.entries, ∀ token ∈ e.1.tokens,
      Text.occurs "hole" token = false := by
    decide +kernel
  have hsame : ∀ e ∈ (letterContexts.withMark "hole").entries, ∀ token ∈ e.1.tokens,
      Text.occurs "ole" token = Text.occurs "hole" token := by
    decide +kernel
  have hfound : model.fillersFramed id letterContexts ≠ .empty := by decide +kernel
  obtain ⟨-, -, hempty, hmarks⟩ := fillers_of_marked hlanguage hmark
  exact ⟨hlanguage, hmark, by decide, hempty (by decide), hsame, hmarks "ole" hsame, hfound⟩

/-- So a mark is not honoured: with one that is in no token of the contexts, and that takes the
place of single wildcards, other names are found than at the wildcard. -/
theorem fillers_of_marked_lost :
    let model := (inOneGo letters pairConfig pairUnits).model
    let mixture : Mixture := ⟨model, model, Mixture.defaultWeight⟩
    let marked := letterContexts.withMark "hole"
    Obtained pairConfig model ∧ "hole" ≠ "" ∧
      (∀ e ∈ letterContexts.entries, ∀ token ∈ e.1.tokens, Text.occurs "hole" token = false) ∧
      (∀ e ∈ letterContexts.entries, ∀ token ∈ e.1.tokens, NGram.isOpen token = true →
        Text.OccursOnce wildcard token ∧
          Text.OccursOnce "hole" (Text.replace wildcard "hole" token)) ∧
      (model.languageModel : LanguageModel Float).fillers marked "hole"
        ≠ (model.languageModel : LanguageModel Float).fillers letterContexts wildcard ∧
      (mixture.languageModel : LanguageModel Float).fillers marked "hole"
        ≠ (mixture.languageModel : LanguageModel Float).fillers letterContexts wildcard := by
  intro model mixture marked
  have hlost : model.fillers marked "hole" ≠ model.fillers letterContexts wildcard := by
    decide +kernel
  have hdrawn : ∀ language : LanguageModel Float, DrawsNamesFrom model language →
      language.fillers marked "hole" ≠ language.fillers letterContexts wildcard := by
    intro language h
    rwa [h.fillers_eq]
  have hbare : ∀ e ∈ letterContexts.entries, ∀ token ∈ e.1.tokens, NGram.isOpen token = true →
      token = wildcard := by
    decide +kernel
  refine ⟨obtained_letters, by decide, by decide +kernel, ?_, hdrawn _ .alone,
    hdrawn _ (.mixed mixture rfl)⟩
  intro e he token htoken hopen
  rw [hbare e he token htoken hopen]
  exact ⟨NGram.occursOnce_wildcard, [], [], by decide, by decide⟩

end BackoffModel

end NaturalNames
