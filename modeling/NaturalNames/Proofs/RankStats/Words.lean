import NaturalNames.Proofs.RankStats

/-!
# `NaturalNames.Proofs.RankStats.Words`: statistics of 64 bits

A machine keeps the counts of its statistics in words of 64 bits, modulo `2 ^ 64` (`wrap`).
Recording one rank after the other never gets that far, but statistics that are merged into
themselves double every time. `RecordedInWords` relates what such a machine makes to the ranks that
were recorded.

No count exceeds the number of ranks. If that is below `2 ^ 64` the machine has the statistics of
exact counts (`RecordedInWords.recorded`), and all that is said of these holds of it.
-/

set_option autoImplicit false

namespace NaturalNames.RankStats

variable {β : Type}

/-- The statistics with all counts modulo `2 ^ 64`. The sum of reciprocals is no count. -/
def wrap (stats : RankStats β) : RankStats β :=
  { stats with hits := stats.hits.map (· % 2 ^ 64), total := stats.total % 2 ^ 64 }

/-- Words hold the counts of fewer than `2 ^ 64` ranks. -/
theorem Tallies.wrap_eq_self {stats : RankStats β} {ranks : List (Option Nat)}
    (h : stats.Tallies ranks) (hlt : ranks.length < 2 ^ 64) : stats.wrap = stats := by
  have htotal : stats.total % 2 ^ 64 = stats.total := Nat.mod_eq_of_lt (by rwa [h.total_eq])
  have hhits : stats.hits.map (· % 2 ^ 64) = stats.hits := by
    ext k hk
    rw [Vector.getElem_map, h.hits_eq k hk]
    exact Nat.mod_eq_of_lt (Nat.lt_of_le_of_lt List.countP_le_length hlt)
  rw [wrap, htotal, hhits]

variable [Arithmetic β]

/-- Records a rank in words. -/
def recordWords (stats : RankStats β) (rank : Option Nat) : RankStats β := (stats.record rank).wrap

/-- Merges statistics in words. -/
def mergeWords (a b : RankStats β) : RankStats β := (a.merge b).wrap

/-- Statistics made by recording and merging in words, with all ranks that were recorded in them. -/
inductive RecordedInWords : RankStats β → List (Option Nat) → Prop
  | empty : RecordedInWords .empty []
  | record {stats : RankStats β} {ranks : List (Option Nat)} (h : RecordedInWords stats ranks)
    (rank : Option Nat) : RecordedInWords (stats.recordWords rank) (ranks ++ [rank])
  | merge {a b : RankStats β} {ranks ranks' : List (Option Nat)} (ha : RecordedInWords a ranks)
    (hb : RecordedInWords b ranks') : RecordedInWords (a.mergeWords b) (ranks ++ ranks')

namespace RecordedInWords

variable {stats : RankStats β}

/-- Fewer than `2 ^ 64` ranks are recorded in words as they are in numbers of any size. -/
theorem recorded {ranks : List (Option Nat)} (h : RecordedInWords stats ranks)
    (hlt : ranks.length < 2 ^ 64) : Recorded stats ranks := by
  -- Induction on the history: its parts are shorter, so the bound passes down to them.
  induction h with
  | empty => exact .empty
  | record _ rank ih =>
    have hbefore := hlt
    rw [List.length_append] at hbefore
    have hexact := (ih (by omega)).record rank
    rwa [recordWords, (keptByRecording_tallies.of_recorded hexact).wrap_eq_self hlt]
  | merge _ _ iha ihb =>
    have hparts := hlt
    rw [List.length_append] at hparts
    have hexact := (iha (by omega)).merge (ihb (by omega))
    rwa [mergeWords, (keptByRecording_tallies.of_recorded hexact).wrap_eq_self hlt]

/-- Ranks that are recorded one after the other come behind those that were there. -/
theorem foldl_recordWords {before : List (Option Nat)} (h : RecordedInWords stats before)
    (ranks : List (Option Nat)) :
    RecordedInWords (ranks.foldl RankStats.recordWords stats) (before ++ ranks) := by
  induction ranks generalizing stats before with
  | nil => rwa [List.append_nil]
  | cons rank rest ih =>
    rw [List.append_cons]
    exact ih (h.record rank)

end RecordedInWords

end NaturalNames.RankStats
