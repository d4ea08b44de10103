import NaturalNames.Proofs.Number.Real
import NaturalNames.RankStats

/-!
# `NaturalNames.Proofs.RankStats`: statistics are counts of ranks

Statistics are made by recording ranks and by merging what was recorded elsewhere. Either way they
say something about the list of all ranks that were recorded: how many there are and how many are
at most `k` (`Tallies`), and, in exact arithmetic, what one over each adds up to (`Measures`).

A relation between statistics and ranks that recording and merging keep (`KeptByRecording`) holds of
all statistics that can be made (`KeptByRecording.of_recorded`), among them those of ranks recorded
one after the other (`KeptByRecording.recorded`) and of ranks recorded in parts
(`KeptByRecording.merged`). Both relations determine the statistics up to the order of the ranks.
-/

set_option autoImplicit false

namespace NaturalNames.RankStats

variable {β : Type} [Arithmetic β]

/-- Statistics made by recording and merging, with all ranks that were recorded in them. -/
inductive Recorded : RankStats β → List (Option Nat) → Prop
  | empty : Recorded .empty []
  | record {stats : RankStats β} {ranks : List (Option Nat)} (h : Recorded stats ranks)
    (rank : Option Nat) : Recorded (stats.record rank) (ranks ++ [rank])
  | merge {a b : RankStats β} {ranks ranks' : List (Option Nat)} (ha : Recorded a ranks)
    (hb : Recorded b ranks') : Recorded (a.merge b) (ranks ++ ranks')

namespace Recorded

variable {stats : RankStats β} {before : List (Option Nat)}

/-- Ranks that are recorded one after the other are recorded behind the others. -/
theorem foldl_record (h : Recorded stats before) (ranks : List (Option Nat)) :
    Recorded (ranks.foldl RankStats.record stats) (before ++ ranks) := by
  induction ranks generalizing stats before with
  | nil => rwa [List.append_nil]
  | cons rank rest ih =>
    rw [List.append_cons]
    exact ih (h.record rank)

/-- Parts that are merged one after the other are recorded behind the others. -/
theorem foldl_merge (h : Recorded stats before) (parts : List (List (Option Nat))) :
    Recorded
      ((parts.map fun ranks => ranks.foldl RankStats.record .empty).foldl RankStats.merge stats)
      (before ++ parts.flatten) := by
  induction parts generalizing stats before with
  | nil => rwa [List.flatten_nil, List.append_nil]
  | cons ranks rest ih =>
    rw [List.flatten_cons, ← List.append_assoc]
    exact ih (h.merge (empty.foldl_record ranks))

end Recorded

/-! ### Relations that recording keeps -/

/-- A relation between statistics and the ranks recorded in them, kept by all that makes
statistics. -/
structure KeptByRecording (holds : RankStats β → List (Option Nat) → Prop) : Prop where
  empty : holds .empty []
  record : ∀ {stats ranks}, holds stats ranks → ∀ rank, holds (stats.record rank) (ranks ++ [rank])
  merge : ∀ {a b ranks ranks'}, holds a ranks → holds b ranks' → holds (a.merge b) (ranks ++ ranks')

namespace KeptByRecording

variable {holds : RankStats β → List (Option Nat) → Prop}

/-- What every step keeps holds of all statistics, by induction on how they were made. -/
theorem of_recorded (h : KeptByRecording holds) {stats : RankStats β} {ranks : List (Option Nat)}
    (hstats : Recorded stats ranks) : holds stats ranks := by
  induction hstats with
  | empty => exact h.empty
  | record _ rank ih => exact h.record ih rank
  | merge _ _ iha ihb => exact h.merge iha ihb

/-- What recording keeps holds after ranks were recorded one by one. -/
theorem recorded (h : KeptByRecording holds) (ranks : List (Option Nat)) :
    holds (ranks.foldl RankStats.record .empty) ranks :=
  h.of_recorded (Recorded.empty.foldl_record ranks)

/-- What recording keeps holds after ranks were recorded in parts. -/
theorem merged (h : KeptByRecording holds) (parts : List (List (Option Nat))) :
    holds
      ((parts.map fun ranks => ranks.foldl RankStats.record .empty).foldl RankStats.merge .empty)
      parts.flatten :=
  h.of_recorded (Recorded.empty.foldl_merge parts)

end KeptByRecording

/-! ### Counts -/

/-- Whether a rank was found, and is at most `n`. -/
def isWithin (n : Nat) : Option Nat → Bool
  | some rank => 0 < rank && rank ≤ n
  | none => false

/-- The statistics count these ranks. -/
structure Tallies (stats : RankStats β) (ranks : List (Option Nat)) : Prop where
  total_eq : stats.total = ranks.length
  hits_eq : ∀ k (h : k < trackedRanks), stats.hits[k] = ranks.countP (isWithin (k + 1))

/-- Every rank counts, found or not. -/
theorem total_record (stats : RankStats β) (rank : Option Nat) :
    (stats.record rank).total = stats.total + 1 := by
  match rank with
  | none | some 0 | some (n + 1) => rfl

/-- A rank is a hit for every bound that it is within. -/
theorem hits_record (stats : RankStats β) (rank : Option Nat) {k : Nat} (h : k < trackedRanks) :
    (stats.record rank).hits[k] = stats.hits[k] + if isWithin (k + 1) rank then 1 else 0 := by
  match rank with
  | none | some 0 => rfl
  | some (n + 1) =>
    show (stats.hits.mapIdx fun k hit => if n ≤ k then hit + 1 else hit)[k] = _
    rw [Vector.getElem_mapIdx]
    by_cases hn : n ≤ k <;> simp [isWithin, hn]

/-- Recording keeps the hits and the total. -/
theorem keptByRecording_tallies : KeptByRecording (β := β) Tallies where
  empty := by
    constructor
    · rfl
    · intro k h
      exact Vector.getElem_replicate h
  record := by
    intro stats ranks hstats rank
    constructor
    · rw [total_record, hstats.total_eq, List.length_append]
      rfl
    · intro k h
      rw [hits_record, hstats.hits_eq k h, List.countP_append, List.countP_singleton]
  -- A rank that is recorded counts within the first places it lies in, or nowhere.
  merge := by
    intro a b ranks ranks' ha hb
    constructor
    · rw [List.length_append, ← ha.total_eq, ← hb.total_eq]
      rfl
    · intro k h
      rw [List.countP_append, ← ha.hits_eq k h, ← hb.hits_eq k h]
      exact Vector.getElem_zipWith h

omit [Arithmetic β] in
/-- Counts do not depend on the order of what is counted. -/
theorem Tallies.eq_of_perm {a b : RankStats β}
    {ranks ranks' : List (Option Nat)} (ha : a.Tallies ranks) (hb : b.Tallies ranks')
    (hperm : ranks.Perm ranks') : a.total = b.total ∧ a.hits = b.hits := by
  constructor
  · rw [ha.total_eq, hb.total_eq, hperm.length_eq]
  · ext k h
    rw [ha.hits_eq k h, hb.hits_eq k h, hperm.countP_eq]

/-! ### Reciprocals -/

/-- One over a rank, and zero where there is none. -/
noncomputable def reciprocal : Option Nat → ℝ
  | some rank => 1 / rank
  | none => 0

/-- The statistics count these ranks and add up one over each of them. -/
structure Measures (stats : RankStats ℝ) (ranks : List (Option Nat)) : Prop
    extends Tallies stats ranks where
  reciprocals_eq : stats.reciprocals = (ranks.map reciprocal).sum

/-- A rank adds one over itself, and no rank adds nothing. -/
theorem reciprocals_record (stats : RankStats ℝ) (rank : Option Nat) :
    (stats.record rank).reciprocals = stats.reciprocals + reciprocal rank := by
  match rank with
  | none => exact (add_zero _).symm
  | some 0 => simp [record, reciprocal]
  | some (n + 1) => simp [record, reciprocal, Arithmetic.ofNat_real]

/-- Recording keeps the sum of one over each rank, in real arithmetic. -/
theorem keptByRecording_measures : KeptByRecording Measures where
  empty := {
    keptByRecording_tallies.empty with
    reciprocals_eq := Nat.cast_zero }
  record := by
    intro stats ranks hstats rank
    refine ⟨keptByRecording_tallies.record hstats.toTallies rank, ?_⟩
    rw [reciprocals_record, hstats.reciprocals_eq, List.map_append, List.sum_append]
    simp
  merge := by
    intro a b ranks ranks' ha hb
    refine ⟨keptByRecording_tallies.merge ha.toTallies hb.toTallies, ?_⟩
    rw [List.map_append, List.sum_append, ← ha.reciprocals_eq, ← hb.reciprocals_eq]
    rfl

/-- In exact arithmetic statistics do not depend on the order of what was recorded. -/
theorem Measures.eq_of_perm {a b : RankStats ℝ} {ranks ranks' : List (Option Nat)}
    (ha : a.Measures ranks) (hb : b.Measures ranks') (hperm : ranks.Perm ranks') : a = b := by
  obtain ⟨htotal, hhits⟩ := ha.toTallies.eq_of_perm hb.toTallies hperm
  have hreciprocals : a.reciprocals = b.reciprocals := by
    rw [ha.reciprocals_eq, hb.reciprocals_eq, (hperm.map reciprocal).sum_eq]
  cases a
  cases b
  simp_all

end NaturalNames.RankStats
