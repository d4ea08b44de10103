import NaturalNames.Proofs.NGram.Bounds
import NaturalNames.Proofs.Renamer.Masking

/-!
# `NaturalNames.Proofs.Renamer.Locality`: what a ranking reads of the code

A window reads a list of tokens at its own positions and nowhere else (`Window.slice_congr`), and
all positions of a window around `p` are less than `order` away from `p` (`Window.near_of_holds`).
At the given positions themselves a wildcard is read, whatever token stood there. So two lists of
one length have the same contexts if they differ only at the given positions or far from each of
them (`DifferFar`), and the rest of a ranking sees nothing of the list but its contexts.

`rankAt_eq_of_differFar` is this statement about rankings.
-/

set_option autoImplicit false

namespace NaturalNames

namespace Window

/-- A window takes the same from lists that agree inside it. -/
theorem slice_congr {window : Window} {tokens tokens' : List String}
    (h : ∀ i, window.Holds i → tokens[i]? = tokens'[i]?) :
    window.slice tokens = window.slice tokens' := by
  apply List.ext_getElem?
  intro k
  rw [slice, slice, List.getElem?_take, List.getElem?_take]
  split
  next hlt =>
    -- The `k`-th token of the window is the one at `first + k`.
    have hholds : window.Holds (window.first + k) := by
      constructor
      · omega
      · omega
    rw [List.getElem?_drop, List.getElem?_drop, h _ hholds]
  next => rfl

/-- Windows take the same n-grams from lists that agree inside all of them. -/
theorem ngrams_congr {windows : List Window} {tokens tokens' : List String}
    (h : ∀ window ∈ windows, ∀ i, window.Holds i → tokens[i]? = tokens'[i]?) :
    ngrams windows tokens = ngrams windows tokens' := by
  apply List.filterMap_congr
  intro window hwindow
  rw [slice_congr (h window hwindow)]

/-- A window around a position holds no position as far away as the order, on either side. -/
theorem near_of_holds {order length position i : Nat} {window : Window}
    (h : window ∈ around order length position) (hi : window.Holds i) :
    i < position + order ∧ position < i + order := by
  obtain ⟨hfirst, hlast⟩ := hi
  obtain ⟨k, hk, rfl⟩ := List.mem_map.1 h
  have hlt := List.mem_range.1 hk
  have hfirst : position + k + 1 - order ≤ i := hfirst
  have hlast : i ≤ min (position + k) (length - 1) := hlast
  omega

end Window

/-- Contexts of lists that agree near every position of the list. -/
theorem contextsAt_congr {order : Nat} {tokens tokens' : List String} {positions : SortedSet Nat}
    (hlength : tokens.length = tokens'.length)
    (h : ∀ position ∈ positions.toList, position < tokens.length →
      ∀ i, i < position + order → position < i + order → tokens[i]? = tokens'[i]?) :
    contextsAt order tokens positions = contextsAt order tokens' positions := by
  rw [contextsAt_eq_ofKeys, contextsAt_eq_ofKeys, ngramsAt_eq_ngrams, ngramsAt_eq_ngrams, ← hlength]
  congr 1
  apply Window.ngrams_congr
  intro window hwindow i hi
  obtain ⟨position, hposition, hlt, haround⟩ := mem_windowsAt_iff.1 hwindow
  obtain ⟨hbehind, hbefore⟩ := Window.near_of_holds haround hi
  exact h position hposition hlt i hbehind hbefore

/-- Two lists of one length that differ only at some positions, or `order` tokens and more away from
each of these that is a position of the lists. -/
structure DifferFar (order : Nat) (positions : SortedSet Nat) (tokens tokens' : List String) :
    Prop where
  length_eq : tokens.length = tokens'.length
  mem_or_far : ∀ i, tokens[i]? ≠ tokens'[i]? → i ∈ positions.toList ∨
    ∀ position ∈ positions.toList, position < tokens.length →
      position + order ≤ i ∨ i + order ≤ position

namespace Renamer

/-- Lists that differ far away agree near each position once the positions are left open. -/
theorem getElem?_maskPositions_congr {order : Nat} {positions : SortedSet Nat}
    {tokens tokens' : List String} (h : DifferFar order positions tokens tokens')
    {position i : Nat} (hposition : position ∈ positions.toList) (hlt : position < tokens.length)
    (hbehind : i < position + order) (hbefore : position < i + order) :
    (maskPositions positions tokens)[i]? = (maskPositions positions tokens')[i]? := by
  rw [getElem?_maskPositions, getElem?_maskPositions]
  split
  next =>
    -- Both lists have the wildcard there, or both have ended.
    have hlength := h.length_eq
    rcases Nat.lt_or_ge i tokens.length with hi | hi
    · rw [List.getElem?_eq_getElem hi, List.getElem?_eq_getElem (hlength ▸ hi)]
      rfl
    · rw [List.getElem?_eq_none hi, List.getElem?_eq_none (hlength ▸ hi)]
  next hmem =>
    by_contra hne
    rcases h.mem_or_far i hne with hi | hfar
    · exact hmem hi
    · have := hfar position hposition hlt
      omega

/-- **A ranking depends on nearby code only.** Take any renamer, with any model, priors, mode and
settings, any positions and any current name. Two lists of one length that differ only at these
positions, or at least as far away from each of them as the order of the model says, have the same
ranking: the same names with the same scores and counts. A position behind the end of the lists is
no position of theirs, and nothing is near to it. -/
theorem rankAt_eq_of_differFar {α : Type} [Arithmetic α] (renamer : Renamer α)
    {tokens tokens' : List String} {positions : SortedSet Nat}
    (h : DifferFar renamer.model.order positions tokens tokens') (current : String) :
    renamer.rankAt tokens positions current = renamer.rankAt tokens' positions current := by
  have hlength : (maskPositions positions tokens).length
      = (maskPositions positions tokens').length := by
    rw [length_maskPositions, length_maskPositions, h.length_eq]
  have hcontexts : contextsAt renamer.model.order (maskPositions positions tokens) positions
      = contextsAt renamer.model.order (maskPositions positions tokens') positions := by
    apply contextsAt_congr hlength
    intro position hposition hlt i hbehind hbefore
    rw [length_maskPositions] at hlt
    exact getElem?_maskPositions_congr h hposition hlt hbehind hbefore
  rw [rankAt, rankAt, hcontexts]

/-- With a model of order two, neither the name nor the token two places behind it is read. -/
theorem rankAt_eq_of_differFar_pair :
    DifferFar pairRenamer.model.order (.ofList [1, 9]) ["a", "x", "=", "b"] ["a", "y", "=", "c"] ∧
      pairRenamer.rankAt ["a", "x", "=", "b"] (.ofList [1, 9]) "x"
        = pairRenamer.rankAt ["a", "y", "=", "c"] (.ofList [1, 9]) "x" := by
  have hdiffer : DifferFar pairRenamer.model.order (.ofList [1, 9]) ["a", "x", "=", "b"]
      ["a", "y", "=", "c"] := by
    refine ⟨rfl, ?_⟩
    intro i hne
    match i with
    | 0 => exact absurd rfl hne
    | 1 => exact .inl (by decide)
    | 2 => exact absurd rfl hne
    | 3 => exact .inr (by decide)
    | n + 4 => exact absurd rfl hne
  exact ⟨hdiffer, rankAt_eq_of_differFar pairRenamer hdiffer "x"⟩

end Renamer

end NaturalNames
