import Mathlib
import NaturalNames.Proofs.Ordered.Sort
import NaturalNames.Proofs.Renamer.Ranking

/-!
# `NaturalNames.Proofs.Renamer.Pool`: which names are candidates

The current name and the symbol for unknown names are always candidates. Of the other names that the
model finds in the contexts, those with the greatest counts are. They are drawn from a list that is
sorted by count and by name, and what is left out comes behind everything that was taken. `IsTop`
says so of a set of names without sorting anything, and `IsTop.eq` says that this settles the set:
it depends neither on the order in which the names were listed nor on how they were sorted.

The two names that are always candidates are removed before the list is cut off. So they take no
place away from the others, and a renamer with a greater number of candidates has all those of a
renamer with a smaller one. A score depends on the contexts and the name alone, so each of them is
ranked with the score that it had (`mem_rank_of_le`).
-/

set_option autoImplicit false

namespace NaturalNames.Renamer

/-! ### The order of fillers -/

/-- By count, the greatest first, and then by name. -/
def byFrequency : String × Nat → String × Nat → Ordering :=
  compareLex (fun a b => compare b.2 a.2) (compareOn Prod.fst)

instance : Std.TransCmp fun a b : String × Nat => compare b.2 a.2 := transCmp_descending Prod.snd

instance : Std.TransCmp byFrequency := inferInstanceAs (Std.TransCmp (compareLex _ _))

/-- Candidates are ordered by count, and where that is equal by name. -/
theorem byFrequency_eq_then (a b : String × Nat) :
    byFrequency a b = (compare b.2 a.2).then (compare a.1 b.1) := rfl

/-- The comparison that sorts the candidates is that of this order. -/
theorem moreFrequent_eq_isLE : moreFrequent = fun a b => (byFrequency a b).isLE := by
  funext a b
  rw [moreFrequent, byFrequency_eq_then]
  cases compare b.2 a.2 <;> rfl

/-- The order has no ties between different candidates. -/
theorem eq_of_byFrequency {a b : String × Nat} (h : byFrequency a b = .eq) : a = b := by
  rw [byFrequency_eq_then, Ordering.then_eq_eq] at h
  exact Prod.ext (Std.LawfulEqCmp.eq_of_compare h.2) (Std.LawfulEqCmp.eq_of_compare h.1).symm

/-- Of two names the one in front has the greater count, or comes first by name. -/
theorem lt_or_lt_of_byFrequency {a b : String × Nat} (h : (byFrequency a b).isLE = true)
    (hne : a.1 ≠ b.1) : b.2 < a.2 ∨ b.2 = a.2 ∧ a.1 < b.1 := by
  rw [byFrequency_eq_then, Ordering.isLE_then_iff_or] at h
  refine h.imp Nat.compare_eq_lt.1 fun ⟨hcount, hname⟩ => ⟨Nat.compare_eq_eq.1 hcount, ?_⟩
  rcases Ordering.isLE_iff_eq_lt_or_eq_eq.1 hname with hlt | heq
  · exact compareOfLessAndEq_eq_lt.1 hlt
  · exact absurd (Std.LawfulEqCmp.eq_of_compare heq) hne

/-! ### The most frequent names -/

/-- The names in `taken` have the greatest counts. There are `k` of them, or all if there are no
more. -/
structure IsTop (fillers : Tally String) (k : Nat) (taken : Finset String) : Prop where
  subset : ∀ name ∈ taken, name ∈ fillers.keys
  card_eq : taken.card = min k fillers.keys.length
  /-- A name that is left out has a smaller count than each one that is taken, or the same count,
  and then it comes behind by name. -/
  left_out : ∀ name ∈ fillers.keys, name ∉ taken → ∀ better ∈ taken,
    fillers.count name < fillers.count better ∨
      fillers.count name = fillers.count better ∧ better < name

section

variable {fillers : Tally String} {k : Nat} {taken taken' : Finset String}

/-- One set of names has the greatest counts. -/
theorem IsTop.eq (h : IsTop fillers k taken) (h' : IsTop fillers k taken') : taken = taken' := by
  have hcard : taken.card = taken'.card := h.card_eq.trans h'.card_eq.symm
  by_contra hne
  -- Each set would have a name that the other one left out.
  obtain ⟨a, ha, ha'⟩ := Finset.not_subset.1 fun hsub =>
    hne (Finset.eq_of_subset_of_card_le hsub hcard.ge)
  obtain ⟨b, hb', hb⟩ := Finset.not_subset.1 fun hsub =>
    hne (Finset.eq_of_subset_of_card_le hsub hcard.le).symm
  rcases h.left_out b (h'.subset b hb') hb a ha with hlt | ⟨heq, hlt⟩
  · rcases h'.left_out a (h.subset a ha) ha' b hb' with hlt' | ⟨heq', -⟩ <;> omega
  · rcases h'.left_out a (h.subset a ha) ha' b hb' with hlt' | ⟨-, hlt'⟩
    · omega
    · exact absurd hlt' (lt_asymm hlt)

/-- The front of the names in the order of their counts. -/
theorem isTop_take (fillers : Tally String) (k : Nat) :
    IsTop fillers k (((fillers.entries.mergeSort moreFrequent).take k).map Prod.fst).toFinset := by
  have hperm := List.mergeSort_perm fillers.entries moreFrequent
  have hsorted : (fillers.entries.mergeSort moreFrequent).Pairwise fun a b =>
      (byFrequency a b).isLE = true := by
    rw [moreFrequent_eq_isLE]
    exact pairwise_mergeSort_isLE _
  generalize fillers.entries.mergeSort moreFrequent = sorted at hperm hsorted
  have hnames : (sorted.map Prod.fst).Perm fillers.keys := hperm.map Prod.fst
  have hnodup : (sorted.map Prod.fst).Nodup :=
    hnames.nodup_iff.2 (SortedMap.nodup_keys fillers)
  have hcount : ∀ e ∈ sorted, fillers.count e.1 = e.2 := by
    intro e he
    rw [Tally.count, SortedMap.get?_eq_some_iff.2 (hperm.mem_iff.1 he), Option.getD_some]
  refine ⟨?_, ?_, ?_⟩
  · intro name hname
    rw [List.mem_toFinset, List.map_take] at hname
    exact hnames.mem_iff.1 (List.mem_of_mem_take hname)
  · rw [List.map_take, List.toFinset_card_of_nodup (hnodup.sublist (List.take_sublist k _)),
      List.length_take, hnames.length_eq]
  · intro name hname hout better hbetter
    rw [List.mem_toFinset] at hout hbetter
    obtain ⟨b, hb, rfl⟩ := List.mem_map.1 (hnames.mem_iff.2 hname)
    obtain ⟨a, ha, rfl⟩ := List.mem_map.1 hbetter
    -- What is not in the front of the list is behind it.
    have hbehind : b ∈ sorted.drop k := by
      rw [← List.take_append_drop k sorted, List.mem_append] at hb
      exact hb.resolve_left fun hfront => hout (List.mem_map_of_mem hfront)
    rw [← List.take_append_drop k sorted, List.pairwise_append] at hsorted
    have hne : a.1 ≠ b.1 := fun heq => hout (List.mem_map.2 ⟨a, ha, heq⟩)
    rw [hcount a (List.mem_of_mem_take ha), hcount b hb]
    exact lt_or_lt_of_byFrequency (hsorted.2.2 a ha b hbehind) hne

end

/-! ### Pools -/

section

variable {α : Type} (renamer : Renamer α) (contexts : ContextSet) (current : String)

/-- The names found in some contexts, without the two that are candidates in any case. -/
def otherFillers : Tally String :=
  (renamer.model.fillers contexts wildcard).filter fun name _ =>
    name ≠ current && name ≠ unknownSymbol

/-- The top fillers are the first names after sorting. -/
theorem topFillers_eq :
    renamer.topFillers contexts current
      = (((renamer.otherFillers contexts current).entries.mergeSort moreFrequent).take
        renamer.config.maxCandidates).map Prod.fst := rfl

/-- However the fillers are listed, the same are taken. -/
theorem topFillers_eq_of_perm {listed : List (String × Nat)}
    (h : listed.Perm (renamer.otherFillers contexts current).entries) :
    ((listed.mergeSort moreFrequent).take renamer.config.maxCandidates).map Prod.fst
      = renamer.topFillers contexts current := by
  rw [topFillers_eq, moreFrequent_eq_isLE,
    mergeSort_eq_of_perm h fun _ _ _ _ => eq_of_byFrequency]

/-- The renamer with another number of fillers in a pool. -/
def withMaxCandidates (k : Nat) : Renamer α :=
  { renamer with config := { renamer.config with maxCandidates := k } }

/-- A renamer that may take more candidates keeps those it had. -/
theorem mem_candidatePool_of_le {k : Nat} (hk : renamer.config.maxCandidates ≤ k) {name : String}
    (h : name ∈ (renamer.candidatePool contexts current).toList) :
    name ∈ ((renamer.withMaxCandidates k).candidatePool contexts current).toList := by
  rw [mem_candidatePool_iff] at h ⊢
  refine h.imp_right (Or.imp_right fun hname => ?_)
  rw [topFillers_eq, List.map_take] at hname ⊢
  exact (List.take_prefix_take_left hk).subset hname

end

section

variable {α : Type} [Arithmetic α] (renamer : Renamer α)

/-- A renaming stays in the ranking when more candidates are allowed. -/
theorem mem_rank_of_le {k : Nat} (hk : renamer.config.maxCandidates ≤ k) {scope : Scope}
    {identifier : String} {r : Renaming α} (h : r ∈ (renamer.rank scope identifier).toList) :
    r ∈ ((renamer.withMaxCandidates k).rank scope identifier).toList := by
  have hcontexts : (renamer.withMaxCandidates k).snippetContexts scope.snippet identifier
      = renamer.snippetContexts scope.snippet identifier := rfl
  rw [rank] at h ⊢
  rw [hcontexts]
  cases hsnippet : renamer.snippetContexts scope.snippet identifier with
  | error e =>
    rw [hsnippet] at h
    exact h
  | ok contexts =>
    rw [hsnippet] at h
    obtain ⟨hname, hscore⟩ := mem_scoreCandidates_iff.1 h
    -- The number of candidates has no part in a score.
    exact mem_scoreCandidates_iff.2
      ⟨mem_candidatePool_of_le renamer contexts identifier hk hname, hscore⟩

/-- **The candidates are the names with the greatest counts and two more.** Take any model, any
contexts and any current name, and the names that the model finds in the contexts, less the current
name and the symbol for unknown names. One set of these names has the greatest counts, as `IsTop`
says, and the pool consists of it and of the two names left out. It is the same however the names
are listed, and it has two names more at most than the configuration says.

If more candidates are allowed, every renaming of a ranking is in the ranking again, with its score
and its count of contexts. -/
theorem candidatePool_isTop (renamer : Renamer α) (contexts : ContextSet) (current : String) :
    let k := renamer.config.maxCandidates
    let others := renamer.otherFillers contexts current
    let pool := renamer.candidatePool contexts current
    (∃ taken, IsTop others k taken ∧ (∀ taken', IsTop others k taken' → taken' = taken) ∧
      ∀ name, name ∈ pool.toList ↔ name = current ∨ name = unknownSymbol ∨ name ∈ taken) ∧
    (∀ listed : List (String × Nat), listed.Perm others.entries →
      ((listed.mergeSort moreFrequent).take k).map Prod.fst = renamer.topFillers contexts current) ∧
    pool.toList.length ≤ k + 2 ∧
    ∀ k', k ≤ k' → ∀ (scope : Scope) (identifier : String),
      ∀ r ∈ (renamer.rank scope identifier).toList,
        r ∈ ((renamer.withMaxCandidates k').rank scope identifier).toList := by
  intro k others pool
  refine ⟨?_, ?_, length_candidatePool_le renamer contexts current, ?_⟩
  · -- The pool is the current name, the unknown symbol and the top names, which no other set is.
    have htop := isTop_take others k
    refine ⟨_, htop, fun taken' htop' => htop'.eq htop, fun name => ?_⟩
    rw [mem_candidatePool_iff, topFillers_eq, List.mem_toFinset]
    exact or_left_comm
  · -- The same names come out in whatever order the fillers are listed.
    exact fun listed hlisted => topFillers_eq_of_perm renamer contexts current hlisted
  · -- A greater limit only adds candidates, and each is scored apart from the others.
    exact fun k' hk scope identifier r hr => mem_rank_of_le renamer hk hr

/-- Finds five names, two of which are candidates in any case, and takes two of the others. -/
def tiedRenamer : Renamer Float where
  model := {
    order := 2
    probability := fun _ => 0.5
    fillers := fun _ _ => .ofCounts [("x", 9), (unknownSymbol, 8), ("b", 2), ("c", 5), ("a", 2)]
    isUnknown := fun token => token = unknownSymbol }
  tokenizer := .code
  priors := []
  config := { maxCandidates := 2 }
  mode := .crossEntropy

/-- Of the two names with count two, one is taken. With room for three, `a` is ranked as before. -/
theorem candidatePool_isTop_tied :
    IsTop (tiedRenamer.otherFillers .empty "x") 2 {"a", "c"} ∧
    (∀ name, name ∈ (tiedRenamer.candidatePool .empty "x").toList ↔
      name = "x" ∨ name = unknownSymbol ∨ name ∈ ({"a", "c"} : Finset String)) ∧
    [("b", 2), ("c", 5), ("a", 2)].Perm (tiedRenamer.otherFillers .empty "x").entries ∧
    (([("b", 2), ("c", 5), ("a", 2)].mergeSort moreFrequent).take 2).map Prod.fst
      = tiedRenamer.topFillers .empty "x" ∧
    2 ≤ 3 ∧ ∃ r ∈ (tiedRenamer.rank (.ofSnippet "int x ;" .var) "x").toList, r.name = "a" ∧
      r ∈ ((tiedRenamer.withMaxCandidates 3).rank (.ofSnippet "int x ;" .var) "x").toList := by
  have hlisted : [("b", 2), ("c", 5), ("a", 2)].Perm
      -- Two names are tied at two; the alphabet decides which of them is left out.
      (tiedRenamer.otherFillers .empty "x").entries := by decide +kernel
  have htop : IsTop (tiedRenamer.otherFillers .empty "x") 2 {"a", "c"} :=
    ⟨by decide +kernel, by decide +kernel, by decide +kernel⟩
  obtain ⟨⟨taken, -, hunique, hpool⟩, hsame, -, hmore⟩ :=
    candidatePool_isTop tiedRenamer .empty "x"
  obtain rfl := hunique _ htop
  have htokens : tiedRenamer.tokenizer.texts "int x ;" = .ok ["int", "x", ";"] := by cbv
  have hranks : tiedRenamer.RanksScorable (nameContexts 2 "x" ["int", "x", ";"]) "x"
      (some (.ofSnippet "int x ;" .var)) (tiedRenamer.rank (.ofSnippet "int x ;" .var) "x") :=
    ranksScorable_rank _ _ htokens
  have hlikely (ngram : NGram) : tiedRenamer.Likely ngram := by
    show Number.isFinite 0.5 = true ∧ ¬ (0.5 : Float) ≤ 0
    decide
  have hmem (contexts : ContextSet) : "a" ∈ (tiedRenamer.candidatePool contexts "x").toList :=
    (hpool "a").2 (by simp)
  obtain ⟨r, hr, hname⟩ := List.mem_map.1
    ((hranks.mem_names_iff "a").2 ⟨hmem _, fun _ _ _ _ => hlikely _, fun _ => hlikely _⟩)
  exact ⟨htop, hpool, hlisted, hsame _ hlisted, by decide, r, hr, hname,
    hmore 3 (by decide) _ _ r hr⟩

end

end NaturalNames.Renamer
