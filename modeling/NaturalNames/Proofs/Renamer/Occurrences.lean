import NaturalNames.Proofs.NGram.Bounds
import NaturalNames.Proofs.Renamer.Masking
import NaturalNames.Proofs.Renamer.Ranking

/-!
# `NaturalNames.Proofs.Renamer.Occurrences`: how many occurrences a score was computed from

A renaming says from how many occurrences its score was computed. It does not count them: it divides
the weight of the contexts by the order of the model. The quotient is the number of occurrences
since every one of them has as many contexts as the order says, near the ends of the list too
(`CoversPositions`).

`contextsAt_coversPositions` says so of contexts and of the rankings that are made on them. Where no
position is one of the list, the name is scored by itself, and that counts as one occurrence.
-/

set_option autoImplicit false

namespace NaturalNames

/-- The contexts of some positions are cut out of the list, one of each window. -/
structure CoversPositions (order : Nat) (tokens : List String) (positions : SortedSet Nat) :
    Prop where
  inBounds : ∀ window ∈ windowsAt order tokens.length positions, window.InBounds tokens.length
  size_le : ∀ window ∈ windowsAt order tokens.length positions, window.size ≤ order
  /-- A window is around one of the positions. -/
  holds : ∀ window ∈ windowsAt order tokens.length positions,
    ∃ position ∈ positions.toList, position < tokens.length ∧ window.Holds position
  /-- Every window counts once, with the tokens that it has in the list. -/
  contextsAt_eq : ∃ ngrams, contextsAt order tokens positions = .ofKeys ngrams ∧
    ngrams.map NGram.tokens
      = (windowsAt order tokens.length positions).map fun window => window.slice tokens
  exists_window : ∀ ngram ∈ (contextsAt order tokens positions).keys,
    ∃ window ∈ windowsAt order tokens.length positions, ngram.tokens = window.slice tokens
  total_eq : (contextsAt order tokens positions).total
    = order * positions.toList.countP (· < tokens.length)

/-- Every order, list and set of positions has windows that cover the positions. -/
theorem coversPositions (order : Nat) (tokens : List String) (positions : SortedSet Nat) :
    CoversPositions order tokens positions where
  inBounds _ hwindow := inBounds_of_mem_windowsAt hwindow
  size_le := by
    intro window hwindow
    obtain ⟨position, -, -, haround⟩ := mem_windowsAt_iff.1 hwindow
    exact Window.size_le_of_mem_around haround
  -- Each window lies around a position, so that position is one it holds.
  holds := by
    intro window hwindow
    obtain ⟨position, hposition, hlt, haround⟩ := mem_windowsAt_iff.1 hwindow
    exact ⟨position, hposition, hlt, Window.holds_of_mem_around haround hlt⟩
  contextsAt_eq :=
    ⟨ngramsAt order tokens positions, contextsAt_eq_ofKeys order tokens positions,
      map_tokens_ngramsAt order tokens positions⟩
  -- And each context is a window: its n-gram is the slice of the tokens there.
  exists_window := by
    intro ngram hngram
    rw [contextsAt_eq_ofKeys, Tally.mem_keys_ofKeys, ngramsAt_eq_ngrams,
      Window.mem_ngrams_iff] at hngram
    obtain ⟨window, hwindow, hslice⟩ := hngram
    exact ⟨window, hwindow, hslice.symm⟩
  total_eq := total_contextsAt order tokens positions

namespace Renamer

variable {α : Type} [Arithmetic α]

/-- A renaming says how many contexts it was scored on: their weight by the order, and one at
least. -/
theorem contexts_of_scoreCandidate {renamer : Renamer α} {contexts : ContextSet}
    {scope : Option Scope} {name : String} {r : Renaming α} (hmode : renamer.mode = .crossEntropy)
    (h : renamer.scoreCandidate contexts scope name = .ok r) :
    r.contexts = max 1 (contexts.total / renamer.model.order) := by
  unfold scoreCandidate at h
  cases hbits : renamer.logLikelihood contexts name with
  | error e =>
    rw [hbits] at h
    cases h
  | ok bits =>
    rw [hbits, hmode] at h
    cases h
    rfl

/-- The context of a name by itself weighs one. -/
theorem total_loneContext : loneContext.total = 1 := rfl

/-- The weight of the contexts that are scored, in units of the order. -/
theorem max_total_scoredContexts_div {order : Nat} (horder : 1 ≤ order) (tokens : List String)
    (positions : SortedSet Nat) :
    max 1 ((scoredContexts (contextsAt order tokens positions)).total / order)
      = max 1 (positions.toList.countP (· < tokens.length)) := by
  have htotal := total_contextsAt order tokens positions
  rw [scoredContexts]
  split
  next hempty =>
    -- No contexts weigh nothing, so no position is one of the list.
    rw [SortedMap.isEmpty, List.isEmpty_iff] at hempty
    have hzero : (contextsAt order tokens positions).total = 0 := by
      rw [Tally.total, SortedMap.values, hempty]
      rfl
    have hcount : positions.toList.countP (· < tokens.length) = 0 := by
      rw [hzero] at htotal
      rcases Nat.mul_eq_zero.1 htotal.symm with h | h
      · omega
      · exact h
    have hdiv : 1 / order ≤ 1 := Nat.div_le_self 1 order
    rw [total_loneContext, hcount]
    omega
  next =>
    rw [htotal, Nat.mul_div_cancel_left _ horder]

/-- **Contexts cover every occurrence, and renamings count them.** Take any list of tokens, any
positions and any order. All windows that are cut out of the list are inside it, hold at most
`order` tokens and have one of the positions among theirs, and together they weigh `order` for each
position that is one of the list. So the count of every renaming of a ranking by cross-entropy is
the number of these positions, or one if there is none. -/
theorem contextsAt_coversPositions (renamer : Renamer α) :
    (∀ (order : Nat) (tokens : List String) (positions : SortedSet Nat),
      CoversPositions order tokens positions) ∧
    (1 ≤ renamer.model.order → renamer.mode = .crossEntropy →
      ∀ (tokens : List String) (positions : SortedSet Nat) (current : String),
        ∀ r ∈ (renamer.rankAt tokens positions current).toList,
          r.contexts = max 1 (positions.toList.countP (· < tokens.length))) := by
  constructor
  · exact coversPositions
  · intro horder hmode tokens positions current r hr
    have hscore := (mem_scoreCandidates_iff.1 hr).2
    rw [contexts_of_scoreCandidate hmode hscore, max_total_scoredContexts_div horder,
      length_maskPositions]

/-- The model of the letters finds every n-gram likely. -/
theorem likely_pairRenamer (ngram : NGram) : pairRenamer.Likely ngram := by
  show Number.isFinite 0.5 = true ∧ ¬ (0.5 : Float) ≤ 0
  decide

/-- Of three positions two are in the list, and one of these has a window that is cut off. The name
that stands there is ranked, from two occurrences. -/
theorem contextsAt_coversPositions_clipped :
    1 ≤ pairRenamer.model.order ∧ pairRenamer.mode = .crossEntropy ∧
      (contextsAt 2 ["x", "=", "x"] (.ofList [0, 2, 9])).total = 4 ∧
      ∃ r ∈ (pairRenamer.rankAt ["x", "=", "x"] (.ofList [0, 2, 9]) "x").toList,
        r.name = "x" ∧ r.contexts = 2 := by
  obtain ⟨hcovers, hcount⟩ := contextsAt_coversPositions pairRenamer
  have htotal := (hcovers 2 ["x", "=", "x"] (.ofList [0, 2, 9])).total_eq
  have hranks : pairRenamer.RanksScorable
      (contextsAt 2 (maskPositions (.ofList [0, 2, 9]) ["x", "=", "x"]) (.ofList [0, 2, 9])) "x"
      none
      (pairRenamer.rankAt ["x", "=", "x"] (.ofList [0, 2, 9]) "x") :=
    ranksScorable_rankOn (allOpen_contextsAt_maskPositions 2 _ _) "x"
  obtain ⟨r, hr, hname⟩ := List.mem_map.1 (hranks.mem_of_likely likely_pairRenamer).1
  exact ⟨by decide, rfl, htotal, r, hr, hname,
    hcount (by decide) rfl ["x", "=", "x"] (.ofList [0, 2, 9]) "x" r hr⟩

end Renamer

end NaturalNames
