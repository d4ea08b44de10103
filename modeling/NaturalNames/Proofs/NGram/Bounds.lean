import NaturalNames.Proofs.NGram.Window

/-!
# `NaturalNames.Proofs.NGram.Bounds`: windows inside the list

A window is cut out of a list of tokens. That has a meaning only if the window does not start behind
its own end and does not end behind the last token (`Window.InBounds`). The windows around a
position of the list are such, cut off or not (`inBounds_of_mem_around`, `inBounds_of_mem_inside`),
so each of them gives an n-gram (`map_tokens_ngrams`) and contexts weigh as much as there are
windows:

* `total_contextsAt`: `order` for each position of the list. What is cut off at the end of the list
  keeps its weight.
* `total_formattingContexts`: less than that near the end of the list, where windows are left out.
  Which ones these are is found with a sum of words of 64 bits, so position and order together have
  to be below `2 ^ 64` (`inside_eq`).

The difference between the two is the windows that are cut off at the end (`Window.clipped`). With
these added, the contexts of a token are those of a name that stands in its place
(`formattingContexts_lacksClipped`).
-/

set_option autoImplicit false

namespace NaturalNames

namespace Window

/-- All positions of the window are positions of a list of `length` tokens, and there is one. -/
structure InBounds (window : Window) (length : Nat) : Prop where
  first_le : window.first ≤ window.last
  last_lt : window.last < length

/-- The number of positions of a window. -/
def size (window : Window) : Nat := window.last + 1 - window.first

/-- A window inside the list takes as many tokens as it is long. -/
theorem InBounds.length_slice {window : Window} {tokens : List String}
    (h : window.InBounds tokens.length) : (window.slice tokens).length = window.size := by
  obtain ⟨hfirst, hlast⟩ := h
  rw [slice, size, List.length_take, List.length_drop]
  omega

/-- A window inside the list takes something. -/
theorem InBounds.slice_ne_nil {window : Window} {tokens : List String}
    (h : window.InBounds tokens.length) : window.slice tokens ≠ [] := by
  intro hnil
  have hlength := h.length_slice
  have hfirst := h.first_le
  rw [hnil, size] at hlength
  simp at hlength
  omega

/-! ### The windows around a position -/

section

variable {order length position : Nat} {window : Window}

/-- The windows around a position of the list are inside the list. -/
theorem inBounds_of_mem_around (h : window ∈ around order length position)
    (hposition : position < length) : window.InBounds length := by
  obtain ⟨hfirst, hlast⟩ := holds_of_mem_around h hposition
  obtain ⟨i, -, rfl⟩ := List.mem_map.1 h
  refine ⟨Nat.le_trans hfirst hlast, ?_⟩
  show min (position + i) (length - 1) < length
  omega

/-- No window around a position is longer than the order. -/
theorem size_le_of_mem_around (h : window ∈ around order length position) :
    window.size ≤ order := by
  obtain ⟨i, -, rfl⟩ := List.mem_map.1 h
  show min (position + i) (length - 1) + 1 - (position + i + 1 - order) ≤ order
  omega

/-- The windows that are not cut off are inside the list. -/
theorem inBounds_of_mem_inside (horder : 0 < order) (h : window ∈ inside order length position)
    (hposition : position < length) : window.InBounds length := by
  obtain ⟨hfirst, hlast⟩ := holds_of_mem_inside horder h
  obtain ⟨stop, -, hstop, rfl⟩ := mem_inside_iff.1 h
  refine ⟨Nat.le_trans hfirst hlast, ?_⟩
  show stop < length
  rw [lastEnd] at hstop
  omega

/-- Position and order that fit a word together leave out no window but those behind the list. -/
theorem inside_eq (horder : 0 < order) (hposition : position < length)
    (hfits : position + order < 2 ^ 64) :
    inside order length position
      = (List.range (min order (length - position))).map fun i =>
          endingAt order (position + i) := by
  have hcount : lastEnd order length position + 1 - position = min order (length - position) := by
    rw [lastEnd_eq length hfits]
    omega
  rw [inside, hcount, List.range'_eq_map_range, List.map_map]
  rfl

/-- Around each position there are as many windows as the order says. -/
theorem length_around : (around order length position).length = order := by
  simp [around]

/-- Of the windows around a position those are not cut off that end inside the list. -/
theorem length_inside (horder : 0 < order) (hposition : position < length)
    (hfits : position + order < 2 ^ 64) :
    (inside order length position).length = min order (length - position) := by
  simp [inside_eq horder hposition hfits]

end

/-! ### No window is lost -/

/-- Windows in bounds give one n-gram each. -/
theorem map_tokens_ngrams {windows : List Window} {tokens : List String}
    (h : ∀ window ∈ windows, window.InBounds tokens.length) :
    (ngrams windows tokens).map NGram.tokens = windows.map fun window => window.slice tokens := by
  induction windows with
  | nil => rfl
  | cons window rest ih =>
    have hne := (h window (by simp)).slice_ne_nil
    have hhead : NGram.ofList? (window.slice tokens) = some ⟨window.slice tokens, hne⟩ :=
      dif_pos hne
    have hrest := ih fun window hwindow => h window (by simp [hwindow])
    rw [ngrams] at hrest ⊢
    rw [List.filterMap_cons, hhead, List.map_cons, List.map_cons, hrest]

/-- Each window inside the list takes one n-gram. -/
theorem length_ngrams {windows : List Window} {tokens : List String}
    (h : ∀ window ∈ windows, window.InBounds tokens.length) :
    (ngrams windows tokens).length = windows.length := by
  have hmap := congrArg List.length (map_tokens_ngrams h)
  simpa using hmap

/-! ### The windows that are cut off at the end -/

/-- The windows around `position` that would end behind a text of `length` tokens, cut off there.
They come of the offsets from `length - position` to `order - 1`. -/
def clipped (order length position : Nat) : List Window :=
  (List.range' (length - position) (order - (length - position))).map fun i =>
    ⟨position + i + 1 - order, length - 1⟩

/-- As many windows are cut off as would end behind the list. -/
theorem length_clipped (order : Nat) {length position : Nat} (hposition : position < length) :
    (clipped order length position).length = position + order - length := by
  simp [clipped]
  omega

/-- The windows around a position, in two parts. -/
theorem around_eq_append {order length position : Nat} (horder : 0 < order)
    (hposition : position < length) (hfits : position + order < 2 ^ 64) :
    around order length position
      = inside order length position ++ clipped order length position := by
  -- Offsets below `length - position` lead to a position of the list, and all others behind it.
  have hinside : ∀ i ∈ List.range (min order (length - position)),
      { endingAt order (position + i) with last := min (position + i) (length - 1) }
        = endingAt order (position + i) := by
    intro i hi
    have hlt := List.mem_range.1 hi
    have hmin : min (position + i) (length - 1) = position + i := by omega
    rw [hmin]
    rfl
  have hclipped : ∀ i ∈ List.range' (length - position) (order - (length - position)),
      { endingAt order (position + i) with last := min (position + i) (length - 1) }
        = (⟨position + i + 1 - order, length - 1⟩ : Window) := by
    intro i hi
    have hle := (List.mem_range'_1.1 hi).1
    have hmin : min (position + i) (length - 1) = length - 1 := by omega
    rw [hmin]
    rfl
  have hrange : List.range order = List.range (min order (length - position))
      ++ List.range' (length - position) (order - (length - position)) := by
    rcases Nat.le_total order (length - position) with hle | hle
    · rw [Nat.min_eq_left hle, Nat.sub_eq_zero_of_le hle]
      simp
    · have happend : List.range' 0 (length - position)
          ++ List.range' (0 + (length - position)) (order - (length - position))
            = List.range' 0 (length - position + (order - (length - position))) :=
        List.range'_append_1
      rw [Nat.zero_add, Nat.add_sub_cancel' hle] at happend
      rw [Nat.min_eq_right hle, List.range_eq_range', List.range_eq_range', happend]
  rw [around, inside_eq horder hposition hfits, clipped, hrange, List.map_append,
    List.map_congr_left hinside, List.map_congr_left hclipped]

/-- A window that was cut off is inside the list. -/
theorem inBounds_of_mem_clipped {order length position : Nat} {window : Window}
    (h : window ∈ clipped order length position) (hposition : position < length) :
    window.InBounds length := by
  obtain ⟨i, hi, rfl⟩ := List.mem_map.1 h
  obtain ⟨hle, hlt⟩ := List.mem_range'_1.1 hi
  constructor
  · show position + i + 1 - order ≤ length - 1
    omega
  · show length - 1 < length
    omega

end Window

/-! ### Weights -/

/-- The windows that `contextsAt` cuts out of a text of `length` tokens. -/
def windowsAt (order length : Nat) (positions : SortedSet Nat) : List Window :=
  (positions.filter (· < length)).toList.flatMap (Window.around order length)

/-- The windows of some positions are those around each position of the list. -/
theorem mem_windowsAt_iff {order length : Nat} {positions : SortedSet Nat} {window : Window} :
    window ∈ windowsAt order length positions ↔
      ∃ position ∈ positions.toList, position < length ∧
        window ∈ Window.around order length position := by
  simp [windowsAt, SortedSet.filter, and_assoc]

/-- All windows of positions are inside the list. -/
theorem inBounds_of_mem_windowsAt {order length : Nat} {positions : SortedSet Nat} {window : Window}
    (h : window ∈ windowsAt order length positions) : window.InBounds length := by
  obtain ⟨position, -, hlt, hwindow⟩ := mem_windowsAt_iff.1 h
  exact Window.inBounds_of_mem_around hwindow hlt

/-- Every position of the list has `order` windows. -/
theorem length_windowsAt (order length : Nat) (positions : SortedSet Nat) :
    (windowsAt order length positions).length
      = order * positions.toList.countP (· < length) := by
  have hconst : (fun position => (Window.around order length position).length) = fun _ => order :=
    funext fun _ => Window.length_around
  rw [windowsAt, List.length_flatMap, hconst, List.map_const', List.sum_replicate_nat,
    List.countP_eq_length_filter, Nat.mul_comm]
  rfl

/-- The n-grams of positions are what their windows take. -/
theorem ngramsAt_eq_ngrams (order : Nat) (tokens : List String) (positions : SortedSet Nat) :
    ngramsAt order tokens positions
      = Window.ngrams (windowsAt order tokens.length positions) tokens := by
  rw [ngramsAt, windowsAt, Window.ngrams, List.filterMap_flatMap]
  rfl

/-- The contexts are cut out of the windows, one of each. -/
theorem map_tokens_ngramsAt (order : Nat) (tokens : List String) (positions : SortedSet Nat) :
    (ngramsAt order tokens positions).map NGram.tokens
      = (windowsAt order tokens.length positions).map fun window => window.slice tokens := by
  rw [ngramsAt_eq_ngrams]
  exact Window.map_tokens_ngrams fun _ hwindow => inBounds_of_mem_windowsAt hwindow

/-- Contexts weigh `order` for each position of the list. -/
theorem total_contextsAt (order : Nat) (tokens : List String) (positions : SortedSet Nat) :
    (contextsAt order tokens positions).total
      = order * positions.toList.countP (· < tokens.length) := by
  have hlength := congrArg List.length (map_tokens_ngramsAt order tokens positions)
  rw [List.length_map, List.length_map, length_windowsAt] at hlength
  rw [contextsAt_eq_ofKeys, Tally.total_ofKeys, hlength]

/-- The contexts of a token weigh `order` or, near the end, as much as there are tokens from it
on. -/
theorem total_formattingContexts {order index : Nat} {tokens : List String} (horder : 0 < order)
    (hindex : index < tokens.length) (hfits : index + order < 2 ^ 64) :
    (formattingContexts order index tokens).total = min order (tokens.length - index) := by
  have hbounds : ∀ window ∈ Window.inside order tokens.length index,
      window.InBounds (tokens.set index wildcard).length := by
    intro window hwindow
    rw [List.length_set]
    exact Window.inBounds_of_mem_inside horder hwindow hindex
  rw [formattingContexts, if_pos hindex, Tally.total_ofKeys, Window.length_ngrams hbounds,
    Window.length_inside horder hindex hfits]

/-! ### Both kinds of contexts -/

/-- The contexts of the token at `index` are the contexts of a name in its place, less those whose
windows are cut off at the end of the list. -/
structure LacksClipped (order : Nat) (tokens : List String) (index : Nat) : Prop where
  /-- The contexts of a name are those of the token and, counted with them, the n-grams of the
  windows that are cut off. -/
  contextsAt_eq : contextsAt order (tokens.set index wildcard) (.ofList [index])
    = Tally.merge (formattingContexts order index tokens)
      (.ofKeys
        (Window.ngrams (Window.clipped order tokens.length index) (tokens.set index wildcard)))
  /-- Each window that is cut off gives one of these n-grams. -/
  tokens_clipped :
    (Window.ngrams (Window.clipped order tokens.length index) (tokens.set index wildcard)).map
        NGram.tokens
      = (Window.clipped order tokens.length index).map fun window =>
        window.slice (tokens.set index wildcard)
  length_clipped :
    (Window.clipped order tokens.length index).length = index + order - tokens.length
  inBounds_clipped : ∀ window ∈ Window.clipped order tokens.length index,
    window.InBounds tokens.length
  /-- The windows of the token are not cut off, and they are inside the list. -/
  inBounds_inside : ∀ window ∈ Window.inside order tokens.length index,
    window.InBounds tokens.length
  total_eq : (formattingContexts order index tokens).total = min order (tokens.length - index)
  wildcard_mem : ∀ ngram ∈ (formattingContexts order index tokens).keys, wildcard ∈ ngram.tokens

/-- **The contexts of a token are the contexts of a name in its place, less those that are cut
off.** Take an order from one on, any list of tokens and an index inside it, where index and order
together are below `2 ^ 64`, and put the wildcard at the index. The contexts of this position are
those of the token and, counted once for each window, the tokens of `index + order - length` further
windows: those that reach the end of the list and are cut off there. So the contexts of a token
weigh `order` or, near the end, as much as there are tokens from the index on. No window of either
kind reaches out of the list, and every context of a token has the wildcard. -/
theorem formattingContexts_lacksClipped (order : Nat) (tokens : List String) (index : Nat)
    (horder : 0 < order) (hindex : index < tokens.length) (hfits : index + order < 2 ^ 64) :
    LacksClipped order tokens index where
  contextsAt_eq := by
    -- There is one position. So the n-grams are those of the windows around it, which are the ones
    -- that end inside the list and then those that are cut off.
    have hlength : (tokens.set index wildcard).length = tokens.length := List.length_set
    have hpositions : (SortedSet.ofList [index]).filter (· < tokens.length) = .ofList [index] := by
      apply SortedSet.eq_of_toList
      show [index].filter (· < tokens.length) = [index]
      simp [hindex]
    rw [contextsAt_eq_ofKeys, ngramsAt, hlength, hpositions, formattingContexts, if_pos hindex,
      Tally.merge_ofKeys]
    show Tally.ofKeys ([index].flatMap _) = _
    rw [List.flatMap_singleton, Window.around_eq_append horder hindex hfits, Window.ngrams,
      List.filterMap_append]
    rfl
  tokens_clipped := by
    apply Window.map_tokens_ngrams
    intro window hwindow
    rw [List.length_set]
    exact Window.inBounds_of_mem_clipped hwindow hindex
  length_clipped := Window.length_clipped order hindex
  inBounds_clipped _ hwindow := Window.inBounds_of_mem_clipped hwindow hindex
  inBounds_inside _ hwindow := Window.inBounds_of_mem_inside horder hwindow hindex
  total_eq := total_formattingContexts horder hindex hfits
  wildcard_mem _ hngram := mem_of_mem_formattingContexts horder hngram

/-- In a list that is shorter than the order the last window is cut off. It is then the same as the
one before it. -/
theorem formattingContexts_lacksClipped_short :
    0 < 3 ∧ 0 < ["x", "y"].length ∧ 0 + 3 < 2 ^ 64 ∧
      contextsAt 3 [wildcard, "y"] (.ofList [0])
        = Tally.merge (formattingContexts 3 0 ["x", "y"]) (.ofKeys [⟨[wildcard, "y"], by simp⟩]) ∧
      (formattingContexts 3 0 ["x", "y"]).total = 2 := by
  have hlacks :=
    formattingContexts_lacksClipped 3 ["x", "y"] 0 (by decide) (by decide) (by decide)
  exact ⟨by decide, by decide, by decide, hlacks.contextsAt_eq, hlacks.total_eq⟩

end NaturalNames
