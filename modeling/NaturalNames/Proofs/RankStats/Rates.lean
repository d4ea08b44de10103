import NaturalNames.Proofs.Number.Shares
import NaturalNames.Proofs.RankStats.Words

/-!
# `NaturalNames.Proofs.RankStats.Rates`: hit rates and the mean reciprocal rank

A hit rate is the share of the ranks up to some number (`hitRate_eq`). There are no fewer of them up
to a greater number, and no more than there are ranks. So hit rates do not fall and stay below one,
if only the arithmetic keeps the order of shares (`OrdersShares`). Exact arithmetic does
(`ordersShares_real`), and floats do for 64-bit counts (`ordersShares_float`).

The mean reciprocal rank adds up one over each rank. It counts the first rank in full, as the first
hit rate does, and no rank more than that.
-/

set_option autoImplicit false

namespace NaturalNames.RankStats

variable {β : Type} [Arithmetic β] {stats : RankStats β} {ranks : List (Option Nat)}

/-! ### Shares -/

/-- Shares of `n` are in the order of the counts, and between zero and one. -/
structure OrdersShares (β : Type) [Arithmetic β] (n : Nat) : Prop where
  zero_le_zero : (Arithmetic.ofNat 0 : β) ≤ Arithmetic.ofNat 0
  zero_le_one : (Arithmetic.ofNat 0 : β) ≤ Arithmetic.ofNat 1
  zero_le_share : n ≠ 0 → ∀ m, (Arithmetic.ofNat 0 : β) ≤ Arithmetic.ofNat m / Arithmetic.ofNat n
  share_le_share : n ≠ 0 → ∀ m m', m ≤ m' →
    (Arithmetic.ofNat m / Arithmetic.ofNat n : β) ≤ Arithmetic.ofNat m' / Arithmetic.ofNat n
  share_le_one : n ≠ 0 → ∀ m, m ≤ n →
    (Arithmetic.ofNat m / Arithmetic.ofNat n : β) ≤ Arithmetic.ofNat 1

/-- Real numbers order shares. -/
theorem ordersShares_real (n : Nat) : OrdersShares ℝ n where
  zero_le_zero := le_rfl
  zero_le_one := Nat.cast_le.2 (Nat.zero_le 1)
  zero_le_share := fun _ m => by
    simp only [Arithmetic.ofNat_real, Nat.cast_zero]
    positivity
  share_le_share := fun _ m m' h =>
    div_le_div_of_nonneg_right (Nat.cast_le.2 h) (Nat.cast_nonneg n)
  share_le_one := fun hn m h => by
    simp only [Arithmetic.ofNat_real, Nat.cast_one]
    exact (div_le_one (Nat.cast_pos.2 (Nat.pos_of_ne_zero hn))).2 (Nat.cast_le.2 h)

/-- Floats order shares of a whole that fits a word. -/
theorem ordersShares_float {n : Nat} (h : n < 2 ^ 64) : OrdersShares Float n where
  zero_le_zero := Number.float_ofNat_le_ofNat le_rfl
  zero_le_one := Number.float_ofNat_le_ofNat (Nat.zero_le 1)
  zero_le_share := fun hn m => Number.zero_le_float_share hn h m
  share_le_share := fun hn _ _ hle => Number.float_share_le_share hn h hle
  share_le_one := fun hn _ hle => Number.float_share_le_one hn h hle

/-! ### Hit rates -/

/-- What is within a bound is within any greater one. -/
theorem countP_isWithin_le {n n' : Nat} (h : n ≤ n') (ranks : List (Option Nat)) :
    ranks.countP (isWithin n) ≤ ranks.countP (isWithin n') := by
  apply List.countP_mono_left
  intro rank _ hwithin
  match rank with
  | some rank =>
    simp only [isWithin, Bool.and_eq_true, decide_eq_true_eq] at hwithin ⊢
    exact ⟨hwithin.1, hwithin.2.trans h⟩

/-- A hit rate is a share of the ranks. Ranks behind the last tracked one are not told apart. -/
theorem hitRate_eq (h : stats.Tallies ranks) (htotal : stats.total ≠ 0) {k : Nat} (hk : k ≠ 0) :
    stats.hitRate k = Arithmetic.ofNat (ranks.countP (isWithin (min k trackedRanks)))
      / Arithmetic.ofNat stats.total := by
  -- The place read in the table is `min k trackedRanks - 1`, the last that `k` reaches.
  have hlt : min k trackedRanks - 1 < trackedRanks := by
    unfold trackedRanks
    omega
  have hsucc : min k trackedRanks - 1 + 1 = min k trackedRanks := by
    unfold trackedRanks
    omega
  have hhits : stats.hits.toList[min k trackedRanks - 1]?
      = some (ranks.countP (isWithin (min k trackedRanks))) := by
    rw [List.getElem?_eq_getElem (by simpa using hlt), Vector.getElem_toList, h.hits_eq _ hlt,
      hsucc]
  rw [hitRate, if_neg (by simp [htotal, hk]), hhits]
  rfl

/-- Without ranks there is no rate. -/
theorem hitRate_of_total_eq_zero (h : stats.total = 0) (k : Nat) :
    stats.hitRate k = Arithmetic.ofNat 0 := by
  rw [hitRate, if_pos (.inl h)]

/-- No rank is within zero. -/
theorem hitRate_zero (stats : RankStats β) : stats.hitRate 0 = Arithmetic.ofNat 0 := by
  rw [hitRate, if_pos (.inr rfl)]

/-- A greater bound has no lesser rate. -/
theorem hitRate_le_hitRate (h : stats.Tallies ranks) (hshares : OrdersShares β stats.total)
    {k k' : Nat} (hle : k ≤ k') : stats.hitRate k ≤ stats.hitRate k' := by
  -- A rate is zero by definition where nothing was recorded, and for the rank zero.
  rcases Nat.eq_zero_or_pos stats.total with htotal | htotal
  · rw [hitRate_of_total_eq_zero htotal, hitRate_of_total_eq_zero htotal]
    exact hshares.zero_le_zero
  rcases Nat.eq_zero_or_pos k' with rfl | hk'
  · rw [Nat.le_zero.1 hle, hitRate_zero]
    exact hshares.zero_le_zero
  rw [hitRate_eq h htotal.ne' hk'.ne']
  rcases Nat.eq_zero_or_pos k with rfl | hk
  · rw [hitRate_zero]
    exact hshares.zero_le_share htotal.ne' _
  · rw [hitRate_eq h htotal.ne' hk.ne']
    exact hshares.share_le_share htotal.ne' _ _
      (countP_isWithin_le (min_le_min_right trackedRanks hle) ranks)

/-- No more can be hit than was recorded. -/
theorem hitRate_le_one (h : stats.Tallies ranks) (hshares : OrdersShares β stats.total) (k : Nat) :
    stats.hitRate k ≤ Arithmetic.ofNat 1 := by
  rcases Nat.eq_zero_or_pos stats.total with htotal | htotal
  · rw [hitRate_of_total_eq_zero htotal]
    exact hshares.zero_le_one
  rcases Nat.eq_zero_or_pos k with rfl | hk
  · rw [hitRate_zero]
    exact hshares.zero_le_one
  · rw [hitRate_eq h htotal.ne' hk.ne']
    apply hshares.share_le_one htotal.ne'
    rw [h.total_eq]
    exact List.countP_le_length

/-! ### The mean reciprocal rank -/

/-- The ranks at which something was found. -/
def found (ranks : List (Option Nat)) : List Nat :=
  ranks.filterMap fun
    | some (n + 1) => some (n + 1)
    | _ => none

/-- Where nothing was found there is nothing to add. -/
theorem sum_reciprocal_eq (ranks : List (Option Nat)) :
    (ranks.map reciprocal).sum = ((found ranks).map fun rank : Nat => (1 / rank : ℝ)).sum := by
  induction ranks with
  | nil => rfl
  | cons rank rest ih =>
    rw [List.map_cons, List.sum_cons, ih]
    match rank with
    | none => exact zero_add _
    | some 0 =>
      rw [reciprocal, Nat.cast_zero, div_zero]
      exact zero_add _
    | some (n + 1) => rfl

/-- One over a rank is one at most. -/
theorem reciprocal_le_one (rank : Option Nat) : reciprocal rank ≤ 1 := by
  match rank with
  | none => exact zero_le_one
  | some n => exact (one_div _).trans_le (Nat.cast_inv_le_one n)

/-- So the sum is at most the number of ranks. -/
theorem sum_reciprocal_le_length (ranks : List (Option Nat)) :
    (ranks.map reciprocal).sum ≤ ranks.length := by
  have h := List.sum_le_card_nsmul (ranks.map reciprocal) 1 (by
    intro x hx
    obtain ⟨rank, -, rfl⟩ := List.mem_map.1 hx
    exact reciprocal_le_one rank)
  simpa using h

/-- The first rank counts in full. -/
theorem countP_isWithin_one_le_sum_reciprocal (ranks : List (Option Nat)) :
    (ranks.countP (isWithin 1) : ℝ) ≤ (ranks.map reciprocal).sum := by
  induction ranks with
  | nil => simp
  | cons rank rest ih =>
    -- Only the first rank is counted, and its reciprocal is one.
    have hrank : ((if isWithin 1 rank then 1 else 0 : Nat) : ℝ) ≤ reciprocal rank := by
      match rank with
      | none => simp [isWithin, reciprocal]
      | some 0 => simp [isWithin, reciprocal]
      | some 1 => simp [isWithin, reciprocal]
      | some (n + 2) =>
        have hbehind : isWithin 1 (some (n + 2)) = false := by simp [isWithin]
        rw [hbehind, if_neg (by decide), Nat.cast_zero, reciprocal]
        positivity
    rw [List.countP_cons, List.map_cons, List.sum_cons, Nat.cast_add]
    linarith

/-- The rate of one is the share of the ranks that were one. -/
theorem hitRate_one_eq_div {stats : RankStats ℝ} (h : stats.Measures ranks)
    (htotal : stats.total ≠ 0) :
    stats.hitRate 1 = ranks.countP (isWithin 1) / stats.total :=
  hitRate_eq h.toTallies htotal one_ne_zero

/-- The mean is the sum by the number of ranks. -/
theorem meanReciprocalRank_eq {stats : RankStats ℝ} (h : stats.Measures ranks)
    (htotal : stats.total ≠ 0) :
    stats.meanReciprocalRank = (ranks.map reciprocal).sum / stats.total := by
  rw [meanReciprocalRank, if_neg htotal, h.reciprocals_eq, Arithmetic.ofNat_real]

/-- A rank of one adds one to either side, and any other adds to the mean alone. -/
theorem hitRate_one_le_meanReciprocalRank {stats : RankStats ℝ} (h : stats.Measures ranks)
    (htotal : stats.total ≠ 0) : stats.hitRate 1 ≤ stats.meanReciprocalRank := by
  rw [hitRate_one_eq_div h htotal, meanReciprocalRank_eq h htotal]
  exact div_le_div_of_nonneg_right (countP_isWithin_one_le_sum_reciprocal ranks)
    (Nat.cast_nonneg _)

/-- The mean of numbers of at most one is one at most. -/
theorem meanReciprocalRank_le_one {stats : RankStats ℝ} (h : stats.Measures ranks)
    (htotal : stats.total ≠ 0) : stats.meanReciprocalRank ≤ 1 := by
  rw [meanReciprocalRank_eq h htotal, div_le_one (Nat.cast_pos.2 (Nat.pos_of_ne_zero htotal)),
    h.total_eq]
  exact sum_reciprocal_le_length ranks

/-! ### All that is recorded -/

/-- Hit rates do not fall from one rank to the next, and stay below one. -/
structure RatesInOrder (stats : RankStats β) : Prop where
  hitRate_le_hitRate : ∀ k k', k ≤ k' → stats.hitRate k ≤ stats.hitRate k'
  hitRate_le_one : ∀ k, stats.hitRate k ≤ Arithmetic.ofNat 1

/-- Put together, the rates are in order for every number that orders shares. -/
theorem ratesInOrder (h : stats.Tallies ranks) (hshares : OrdersShares β stats.total) :
    stats.RatesInOrder where
  hitRate_le_hitRate _ _ := RankStats.hitRate_le_hitRate h hshares
  hitRate_le_one := RankStats.hitRate_le_one h hshares

/-- **Statistics count the ranks that were recorded.** Take statistics made by recording and merging
in any way, of fewer than `2 ^ 64` ranks in all, with counts that are words of 64 bits. The total is
the number of ranks, and the hits at `k` are how many of them are from one to `k + 1`. No rank, and
a rank of zero, only add to the total. In exact arithmetic the sum is that of one over each rank
from one on.

So in exact arithmetic the ranks determine the statistics in whatever order they were recorded:
merging is commutative and associative, and is to record the ranks of both sides one after the
other. Hit rates do not fall and stay below one, in floats as well. If anything was recorded, the
mean reciprocal rank is between the first hit rate and one. -/
theorem statistics_of_recorded :
    (∀ (γ : Type) [Arithmetic γ] (stats : RankStats γ) (ranks : List (Option Nat)),
      RecordedInWords stats ranks → ranks.length < 2 ^ 64 → stats.Tallies ranks) ∧
    (∀ (stats : RankStats ℝ) (ranks : List (Option Nat)), RecordedInWords stats ranks →
      ranks.length < 2 ^ 64 →
      stats.reciprocals = ((found ranks).map fun rank : Nat => (1 / rank : ℝ)).sum ∧
      stats.RatesInOrder ∧
      (0 < stats.total →
        stats.hitRate 1 ≤ stats.meanReciprocalRank ∧ stats.meanReciprocalRank ≤ 1)) ∧
    (∀ (a b : RankStats ℝ) (ranks ranks' : List (Option Nat)), RecordedInWords a ranks →
      RecordedInWords b ranks' → (ranks ++ ranks').length < 2 ^ 64 →
      (ranks.Perm ranks' → a = b) ∧ a.mergeWords b = b.mergeWords a ∧
      a.mergeWords b = ranks'.foldl RankStats.recordWords a ∧
      a.mergeWords b = (ranks ++ ranks').foldl RankStats.recordWords .empty ∧
      ∀ (c : RankStats ℝ) (ranks'' : List (Option Nat)), RecordedInWords c ranks'' →
        (ranks ++ ranks' ++ ranks'').length < 2 ^ 64 →
        (a.mergeWords b).mergeWords c = a.mergeWords (b.mergeWords c)) ∧
    (∀ (stats : RankStats Float) (ranks : List (Option Nat)), RecordedInWords stats ranks →
      ranks.length < 2 ^ 64 → stats.RatesInOrder) := by
  have htallies : ∀ {γ : Type} [Arithmetic γ] {stats : RankStats γ} {ranks : List (Option Nat)},
      RecordedInWords stats ranks → ranks.length < 2 ^ 64 → stats.Tallies ranks :=
    fun h hlt => keptByRecording_tallies.of_recorded (h.recorded hlt)
  have hmeasures : ∀ {stats : RankStats ℝ} {ranks : List (Option Nat)},
      RecordedInWords stats ranks → ranks.length < 2 ^ 64 → stats.Measures ranks :=
    fun h hlt => keptByRecording_measures.of_recorded (h.recorded hlt)
  refine ⟨fun γ _ stats ranks => htallies, fun stats ranks h hlt => ?_,
    fun a b ranks ranks' ha hb hlt => ?_, fun stats ranks h hlt => ?_⟩
  · have hstats := hmeasures h hlt
    refine ⟨hstats.reciprocals_eq.trans (sum_reciprocal_eq ranks),
      ratesInOrder hstats.toTallies (ordersShares_real _), fun hpos => ?_⟩
    exact ⟨hitRate_one_le_meanReciprocalRank hstats hpos.ne',
      meanReciprocalRank_le_one hstats hpos.ne'⟩
  · -- Each side of an equation was made of the same ranks, up to their order.
    have hlengths := hlt
    rw [List.length_append] at hlengths
    have hmerge := hmeasures (ha.merge hb) hlt
    have hswapped := hmeasures (hb.merge ha) (by rw [List.length_append]; omega)
    have hbehind := hmeasures (ha.foldl_recordWords ranks') hlt
    have hanew := hmeasures (RecordedInWords.empty.foldl_recordWords (ranks ++ ranks')) hlt
    refine ⟨(hmeasures ha (by omega)).eq_of_perm (hmeasures hb (by omega)),
      hmerge.eq_of_perm hswapped List.perm_append_comm, hmerge.eq_of_perm hbehind (.refl _),
      hmerge.eq_of_perm hanew (.refl _), fun c ranks'' hc hall => ?_⟩
    have hleft := hmeasures ((ha.merge hb).merge hc) hall
    rw [List.append_assoc] at hleft hall
    exact hleft.eq_of_perm (hmeasures (ha.merge (hb.merge hc)) hall) (.refl _)
  · have hstats := htallies h hlt
    exact ratesInOrder hstats (ordersShares_float (by rwa [hstats.total_eq]))

/-- Nothing found, a rank of zero, the first rank, the last tracked one and the one behind it. They
are recorded on two sides. -/
theorem statistics_of_recorded_boundary :
    ∃ a b : RankStats ℝ,
      RecordedInWords a [none, some 0, some 1] ∧ RecordedInWords b [some 20, some 21] ∧
      ([none, some 0, some 1] ++ [some 20, some 21]).length < 2 ^ 64 ∧
      a.mergeWords b = b.mergeWords a ∧ (a.mergeWords b).total = 5 ∧
      (a.mergeWords b).hits[18] = 1 ∧ (a.mergeWords b).hits[19] = 2 ∧
      (a.mergeWords b).reciprocals = 1 + 1 / 20 + 1 / 21 ∧
      (a.mergeWords b).hitRate 1 ≤ (a.mergeWords b).meanReciprocalRank ∧
      (a.mergeWords b).meanReciprocalRank ≤ 1 ∧
      ∃ stats : RankStats Float, RecordedInWords stats [some 20, some 21] ∧ stats.total = 2 ∧
        stats.hitRate 19 ≤ stats.hitRate 20 := by
  -- Three ranks and two are recorded apart and merged; of the two, 20 is tracked and 21 is not.
  obtain ⟨hcounts, hreal, hmerge, hfloat⟩ := statistics_of_recorded
  obtain ⟨a, ha⟩ : ∃ a : RankStats ℝ, RecordedInWords a [none, some 0, some 1] :=
    ⟨_, ((RecordedInWords.empty.record none).record (some 0)).record (some 1)⟩
  obtain ⟨b, hb⟩ : ∃ b : RankStats ℝ, RecordedInWords b [some 20, some 21] :=
    ⟨_, (RecordedInWords.empty.record (some 20)).record (some 21)⟩
  obtain ⟨stats, hstats⟩ : ∃ stats : RankStats Float, RecordedInWords stats [some 20, some 21] :=
    ⟨_, (RecordedInWords.empty.record (some 20)).record (some 21)⟩
  have hlt : ([none, some 0, some 1] ++ [some 20, some 21]).length < 2 ^ 64 := by decide
  have htallies := hcounts ℝ _ _ (ha.merge hb) hlt
  have htotal : (a.mergeWords b).total = 5 := htallies.total_eq
  have hfloats : stats.total = 2 := (hcounts Float _ _ hstats (by decide)).total_eq
  obtain ⟨hreciprocals, -, hmean⟩ := hreal _ _ (ha.merge hb) hlt
  have hsum : (a.mergeWords b).reciprocals = 1 + 1 / 20 + 1 / 21 := by
    rw [hreciprocals]
    show ([(1 / (1 : Nat) : ℝ), 1 / (20 : Nat), 1 / (21 : Nat)]).sum = _
    norm_num
  have hmean := hmean (by omega)
  exact ⟨a, b, ha, hb, hlt, (hmerge _ _ _ _ ha hb hlt).2.1, htotal,
    htallies.hits_eq 18 (by decide), htallies.hits_eq 19 (by decide), hsum, hmean.1, hmean.2, stats,
    hstats, hfloats, (hfloat _ _ hstats (by decide)).hitRate_le_hitRate 19 20 (by decide)⟩

end NaturalNames.RankStats
