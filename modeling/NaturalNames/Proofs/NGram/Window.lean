import NaturalNames.NGram.Window
import NaturalNames.Proofs.NGram
import NaturalNames.Proofs.Ordered.Set
import NaturalNames.Proofs.Ordered.Tally

/-!
# `NaturalNames.Proofs.NGram.Window`: a context holds the token it is a context of

A window around a position starts at the position or in front of it, and ends at it or behind it
(`Window.Holds`), whether it was cut off or not. So every context of a position has the token that
stands there among its own (`mem_of_mem_contextsAt`, `mem_of_mem_formattingContexts`), and where
that token is open a name can be put into the context.

The contexts of a changed list of tokens are the changed contexts of the list
(`contextsAt_map`): what windows take depends on positions and not on tokens.
-/

set_option autoImplicit false

namespace NaturalNames

namespace Window

/-- The position is one of the window. -/
def Holds (window : Window) (position : Nat) : Prop :=
  window.first ≤ position ∧ position ≤ window.last

/-- Each window around a position of the list holds it, cut off or not. -/
theorem holds_of_mem_around {order length position : Nat} {window : Window}
    (h : window ∈ around order length position) (hposition : position < length) :
    window.Holds position := by
  obtain ⟨i, hi, rfl⟩ := List.mem_map.1 h
  have hlt := List.mem_range.1 hi
  constructor
  · show position + i + 1 - order ≤ position
    omega
  · show position ≤ min (position + i) (length - 1)
    omega

/-- A window that is not cut off ends at the position, behind it, or at the last place that is
left. -/
theorem mem_inside_iff {order length position : Nat} {window : Window} :
    window ∈ inside order length position ↔
      ∃ stop, position ≤ stop ∧ stop ≤ lastEnd order length position ∧
        endingAt order stop = window := by
  rw [inside, List.mem_map]
  refine exists_congr fun stop => ?_
  rw [List.mem_range'_1, and_assoc, and_congr_right_iff]
  intro hle
  exact and_congr_left' (by omega)

/-- Wherever the sum of words leads, the last end is less than `order` behind the position. -/
theorem lastEnd_lt {order position : Nat} (length : Nat) (horder : 0 < order) :
    lastEnd order length position < position + order := by
  have hmod := Nat.mod_le (position + order - 1) UInt64.size
  rw [lastEnd]
  omega

/-- A sum that is a word is the last end, if the text goes on that far. -/
theorem lastEnd_eq {order position : Nat} (length : Nat) (hfits : position + order < 2 ^ 64) :
    lastEnd order length position = min (position + order - 1) (length - 1) := by
  have hword : position + order - 1 < UInt64.size := Nat.lt_of_le_of_lt (Nat.sub_le ..) hfits
  rw [lastEnd, Nat.mod_eq_of_lt hword]

/-- Each window that ends inside the list holds the position, wherever the sum of words leads. -/
theorem holds_of_mem_inside {order length position : Nat} {window : Window} (horder : 0 < order)
    (h : window ∈ inside order length position) : window.Holds position := by
  obtain ⟨stop, hle, hstop, rfl⟩ := mem_inside_iff.1 h
  have hlt : lastEnd order length position < position + order := lastEnd_lt length horder
  refine ⟨?_, hle⟩
  show stop + 1 - order ≤ position
  omega

/-- The token at a position of the window is among its tokens. -/
theorem mem_slice_of_holds {window : Window} {tokens : List String} {position : Nat}
    {token : String} (h : window.Holds position) (hget : tokens[position]? = some token) :
    token ∈ window.slice tokens := by
  obtain ⟨hfirst, hlast⟩ := h
  refine List.mem_of_getElem? (i := position - window.first) ?_
  rw [slice, List.getElem?_take_of_lt (by omega), List.getElem?_drop,
    Nat.add_sub_cancel' hfirst]
  exact hget

/-- What a window takes is of the list. -/
theorem mem_of_mem_slice {window : Window} {tokens : List String} {token : String}
    (h : token ∈ window.slice tokens) : token ∈ tokens :=
  List.mem_of_mem_drop (List.mem_of_mem_take h)

/-- A window takes changed tokens from a changed list. -/
theorem slice_map (window : Window) (f : String → String) (tokens : List String) :
    window.slice (tokens.map f) = (window.slice tokens).map f := by
  rw [slice, slice, ← List.map_drop, ← List.map_take]

/-- The n-grams of windows are what the windows take. -/
theorem mem_ngrams_iff {windows : List Window} {tokens : List String} {ngram : NGram} :
    ngram ∈ ngrams windows tokens ↔ ∃ window ∈ windows, window.slice tokens = ngram.tokens := by
  rw [ngrams, List.mem_filterMap]
  refine exists_congr fun window => and_congr_right fun _ => ?_
  rw [NGram.ofList?]
  split
  next hne =>
    refine ⟨fun h => ?_, fun h => congrArg some (NGram.eq_of_tokens h)⟩
    cases h
    rfl
  next hnil =>
    refine ⟨fun h => ?_, fun h => absurd (h ▸ ngram.nonempty) hnil⟩
    cases h

end Window

/-! ### Changed tokens -/

namespace NGram

/-- The n-gram with every token changed by `f`. -/
def mapTokens (f : String → String) (ngram : NGram) : NGram :=
  ⟨ngram.tokens.map f, by simp [ngram.nonempty]⟩

/-- Changing tokens makes an n-gram of none, and of an n-gram the changed one. -/
theorem ofList?_map (f : String → String) (tokens : List String) :
    ofList? (tokens.map f) = (ofList? tokens).map (mapTokens f) := by
  cases tokens <;> rfl

end NGram

/-- Windows take changed n-grams from a changed list. -/
theorem Window.ngrams_map (windows : List Window) (f : String → String) (tokens : List String) :
    Window.ngrams windows (tokens.map f) = (Window.ngrams windows tokens).map (.mapTokens f) := by
  rw [Window.ngrams, Window.ngrams, List.map_filterMap]
  refine List.filterMap_congr fun window _ => ?_
  rw [Window.slice_map, NGram.ofList?_map]

/-! ### Contexts of positions -/

/-- The n-grams that `contextsAt` counts. -/
def ngramsAt (order : Nat) (tokens : List String) (positions : SortedSet Nat) : List NGram :=
  (positions.filter (· < tokens.length)).toList.flatMap fun position =>
    Window.ngrams (Window.around order tokens.length position) tokens

/-- The contexts count the n-grams of the positions. -/
theorem contextsAt_eq_ofKeys (order : Nat) (tokens : List String) (positions : SortedSet Nat) :
    contextsAt order tokens positions = .ofKeys (ngramsAt order tokens positions) := rfl

/-- The n-grams of positions are what the windows around them take. -/
theorem mem_ngramsAt_iff {order : Nat} {tokens : List String} {positions : SortedSet Nat}
    {ngram : NGram} :
    ngram ∈ ngramsAt order tokens positions ↔
      ∃ position ∈ positions.toList, position < tokens.length ∧
        ∃ window ∈ Window.around order tokens.length position,
          window.slice tokens = ngram.tokens := by
  simp [ngramsAt, SortedSet.filter, Window.mem_ngrams_iff, and_assoc]

/-- The tokens of a context are tokens of the list. -/
theorem mem_of_mem_ngramsAt {order : Nat} {tokens : List String} {positions : SortedSet Nat}
    {ngram : NGram} (h : ngram ∈ ngramsAt order tokens positions) {token : String}
    (htoken : token ∈ ngram.tokens) : token ∈ tokens := by
  obtain ⟨-, -, -, window, -, hslice⟩ := mem_ngramsAt_iff.1 h
  exact Window.mem_of_mem_slice (hslice ▸ htoken)

/-- The n-grams of a changed list are the changed n-grams. -/
theorem ngramsAt_map (order : Nat) (f : String → String) (tokens : List String)
    (positions : SortedSet Nat) :
    ngramsAt order (tokens.map f) positions
      = (ngramsAt order tokens positions).map (.mapTokens f) := by
  rw [ngramsAt, ngramsAt, List.map_flatMap, List.length_map]
  simp only [Window.ngrams_map]

/-- The contexts of changed tokens are the changed contexts. -/
theorem contextsAt_map (order : Nat) (f : String → String) (tokens : List String)
    (positions : SortedSet Nat) :
    contextsAt order (tokens.map f) positions
      = .ofKeys ((ngramsAt order tokens positions).map (.mapTokens f)) := by
  rw [contextsAt_eq_ofKeys, ngramsAt_map]

/-- A context of some positions holds the token at one of them. -/
theorem mem_of_mem_contextsAt {order : Nat} {tokens : List String} {positions : SortedSet Nat}
    {ngram : NGram} (h : ngram ∈ (contextsAt order tokens positions).keys) :
    ∃ position ∈ positions.toList, ∃ token, tokens[position]? = some token ∧
      token ∈ ngram.tokens := by
  rw [contextsAt_eq_ofKeys, Tally.mem_keys_ofKeys, mem_ngramsAt_iff] at h
  obtain ⟨position, hmem, hlt, window, hwindow, hslice⟩ := h
  have hget : tokens[position]? = some tokens[position] := List.getElem?_eq_getElem hlt
  refine ⟨position, hmem, _, hget, ?_⟩
  rw [← hslice]
  exact Window.mem_slice_of_holds (Window.holds_of_mem_around hwindow hlt) hget

/-- A context of one position holds the wildcard that was put there. -/
theorem mem_of_mem_formattingContexts {order index : Nat} {tokens : List String} {ngram : NGram}
    (horder : 0 < order) (h : ngram ∈ (formattingContexts order index tokens).keys) :
    wildcard ∈ ngram.tokens := by
  rw [formattingContexts] at h
  split at h
  next hlt =>
    rw [Tally.mem_keys_ofKeys, Window.mem_ngrams_iff] at h
    obtain ⟨window, hwindow, hslice⟩ := h
    rw [← hslice]
    exact Window.mem_slice_of_holds (Window.holds_of_mem_inside horder hwindow)
      (List.getElem?_set_self hlt)
  next => cases h

/-! ### Where there are contexts -/

/-- A window that holds a position of the list has an n-gram. -/
private theorem exists_ngram_of_holds {windows : List Window} {window : Window}
    {tokens : List String} {position : Nat} (hwindow : window ∈ windows)
    (h : window.Holds position) (hlt : position < tokens.length) :
    ∃ ngram, ngram ∈ Window.ngrams windows tokens := by
  have htoken := Window.mem_slice_of_holds h (List.getElem?_eq_getElem hlt)
  exact ⟨⟨window.slice tokens, List.ne_nil_of_mem htoken⟩,
    Window.mem_ngrams_iff.2 ⟨window, hwindow, rfl⟩⟩

/-- A position of the list has a context: the window that ends there. -/
theorem exists_mem_contextsAt {order : Nat} {tokens : List String} {positions : SortedSet Nat}
    {position : Nat} (horder : 0 < order) (hmem : position ∈ positions.toList)
    (hlt : position < tokens.length) :
    ∃ ngram, ngram ∈ (contextsAt order tokens positions).keys := by
  have hwindow : ⟨position + 0 + 1 - order, min (position + 0) (tokens.length - 1)⟩
      ∈ Window.around order tokens.length position :=
    List.mem_map_of_mem (List.mem_range.2 horder)
  obtain ⟨ngram, hngram⟩ :=
    exists_ngram_of_holds hwindow (Window.holds_of_mem_around hwindow hlt) hlt
  obtain ⟨window, hwindow, hslice⟩ := Window.mem_ngrams_iff.1 hngram
  refine ⟨ngram, ?_⟩
  rw [contextsAt_eq_ofKeys, Tally.mem_keys_ofKeys, mem_ngramsAt_iff]
  exact ⟨position, hmem, hlt, window, hwindow, hslice⟩

/-- So has a position of the list by itself, if its windows end at words of 64 bits. -/
theorem exists_mem_formattingContexts {order index : Nat} {tokens : List String}
    (horder : 0 < order) (hlt : index < tokens.length) (hfits : index + order < 2 ^ 64) :
    ∃ ngram, ngram ∈ (formattingContexts order index tokens).keys := by
  have hlast : index ≤ Window.lastEnd order tokens.length index := by
    rw [Window.lastEnd_eq _ hfits]
    omega
  have hwindow : Window.endingAt order index ∈ Window.inside order tokens.length index :=
    Window.mem_inside_iff.2 ⟨index, Nat.le_refl _, hlast, rfl⟩
  have hset : index < (tokens.set index wildcard).length := by rwa [List.length_set]
  obtain ⟨ngram, hngram⟩ :=
    exists_ngram_of_holds hwindow (Window.holds_of_mem_inside horder hwindow) hset
  refine ⟨ngram, ?_⟩
  rw [formattingContexts, if_pos hlt, Tally.mem_keys_ofKeys]
  exact hngram

end NaturalNames
