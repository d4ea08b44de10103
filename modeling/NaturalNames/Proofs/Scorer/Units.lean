import NaturalNames.Proofs.Scorer.Schedule

/-!
# `NaturalNames.Proofs.Scorer.Units`: a corpus is ranked unit by unit

There are two ways to score a unit. By itself, its occurrences are spread over the machine. In a
corpus the units are spread instead, and whoever works on a unit takes its occurrences in turn.
Units that cannot be read are passed over on the way, and units with equal scores compete for a
place.

* `toOption_scoreUnit`: the two ways agree on every unit.
* `rankUnits_eq_sort` takes machine and chunks away: a ranking is the sorted list of what is said
  about the readable units, so it can depend on the order of the corpus only where two units have
  one score and one name.
* `ranked_units` puts together what follows for the content, the order and the schedule.
-/

set_option autoImplicit false

namespace NaturalNames.Scorer

variable {α : Type} [Arithmetic α]

/-! ### Single units -/

/-- The extractor finds out which occurrences a unit has. -/
def canRead (scorer : Scorer α) (unit : CorpusUnit) : Bool :=
  (scorer.extractor.extract unit.source).isOk

variable (scorer : Scorer α) {unit : CorpusUnit}

/-- Scored in a corpus, a unit gets the report that it gets by itself. -/
theorem toOption_scoreUnit (machine : Machine) (unit : CorpusUnit) :
    (scorer.scoreUnit machine unit.source).toOption.map (RankedUnit.mk unit.name)
      = scorer.rankUnit? unit := by
  rw [scoreUnit, rankUnit?]
  cases scorer.extractor.extract unit.source with
  | error e => rfl
  | ok occurrences =>
    show some (RankedUnit.mk unit.name (scorer.scoreOccurrences machine occurrences true)) = _
    rw [scoreOccurrences, rankSuggestions_eq_suggestInTurn]
    rfl

variable {scorer}

/-- A unit that cannot be read has no rank. -/
theorem rankUnit?_eq_none (h : scorer.canRead unit = false) : scorer.rankUnit? unit = none := by
  rw [canRead] at h
  rw [rankUnit?]
  cases hextract : scorer.extractor.extract unit.source with
  | error e => rfl
  | ok occurrences =>
    rw [hextract] at h
    cases h

/-- A unit that can be read is ranked under its name, with the report that it gets by itself. -/
theorem exists_rankUnit? (machine : Machine) (h : scorer.canRead unit = true) :
    ∃ report, scorer.scoreUnit machine unit.source = .ok report ∧
      scorer.rankUnit? unit = some ⟨unit.name, report⟩ := by
  rw [canRead] at h
  rw [← scorer.toOption_scoreUnit machine, scoreUnit]
  cases hextract : scorer.extractor.extract unit.source with
  | error e =>
    rw [hextract] at h
    cases h
  | ok occurrences => exact ⟨_, rfl, rfl⟩

/-- A unit is ranked under its own name. -/
theorem name_of_rankUnit? {ranked : RankedUnit α} (h : scorer.rankUnit? unit = some ranked) :
    ranked.name = unit.name := by
  obtain ⟨_, -, rfl⟩ := Option.map_eq_some_iff.1 h
  rfl

/-! ### The order of units -/

instance : Std.TransCmp (unitOrder : RankedUnit α → RankedUnit α → Ordering) :=
  haveI : Std.TransCmp fun a b : RankedUnit α => Arithmetic.order b.report.score a.report.score :=
    transCmp_descending fun ranked : RankedUnit α => ranked.report.score
  inferInstanceAs (Std.TransCmp (compareLex _ (compareOn RankedUnit.name)))

/-- Units that tie have one name. -/
theorem name_eq_of_unitOrder {a b : RankedUnit α} (h : unitOrder a b = .eq) : a.name = b.name := by
  rw [unitOrder, Ordering.then_eq_eq] at h
  exact Std.LawfulEqCmp.eq_of_compare h.2

/-- The greatest score comes first, and units with one score are in the order of their names. -/
theorem pairwise_sort_units (ranked : List (RankedUnit α)) :
    (ranked.mergeSort fun a b => (unitOrder a b).isLE).Pairwise fun a b =>
      Arithmetic.order b.report.score a.report.score = .lt ∨
        Arithmetic.order b.report.score a.report.score = .eq ∧
          (a.name < b.name ∨ a.name = b.name) := by
  refine (pairwise_mergeSort_isLE ranked).imp fun {a b} h => ?_
  have hlt : compare a.name b.name = .lt ↔ a.name < b.name := compareOfLessAndEq_eq_lt
  have heq : compare a.name b.name = .eq ↔ a.name = b.name := Std.LawfulEqCmp.compare_eq_iff_eq
  rwa [unitOrder, Ordering.isLE_then_iff_or, Ordering.isLE_iff_eq_lt_or_eq_eq, hlt, heq] at h

/-! ### The ranking of a corpus -/

/-- Chunked or not, the ranking is that of the units one after the other. -/
theorem rankUnits_eq_sort (scorer : Scorer α) (machine : Machine) (units : List CorpusUnit) :
    scorer.rankUnits machine units
      = (units.filterMap scorer.rankUnit?).mergeSort fun a b => (unitOrder a b).isLE := by
  have hchunks := machine.flatMap_mapChunks scorer.chunkFactor
    (fun chunk => chunk.filterMap scorer.rankUnit?) id (fun unit => (scorer.rankUnit? unit).toList)
    (fun chunk => List.filterMap_eq_flatMap_toList _ _) units
  rw [rankUnits, List.flatten_eq_flatMap, hchunks, ← List.filterMap_eq_flatMap_toList]

/-- Units that cannot be read leave no trace. -/
theorem filterMap_rankUnit?_filter (scorer : Scorer α) (units : List CorpusUnit) :
    (units.filter scorer.canRead).filterMap scorer.rankUnit?
      = units.filterMap scorer.rankUnit? := by
  rw [List.filterMap_filter]
  refine List.filterMap_congr fun unit _ => ?_
  split
  · rfl
  next h => rw [rankUnit?_eq_none (Bool.not_eq_true _ ▸ h)]

/-- What is said about the units of a corpus, each under its name. -/
theorem map_filterMap_rankUnit? (scorer : Scorer α) (machine : Machine) (units : List CorpusUnit) :
    (units.filterMap scorer.rankUnit?).map (fun ranked => (ranked.name, Except.ok ranked.report))
      = (units.filter scorer.canRead).map fun unit =>
          (unit.name, scorer.scoreUnit machine unit.source) := by
  rw [← filterMap_rankUnit?_filter, List.map_filterMap, ← List.filterMap_eq_map]
  refine List.filterMap_congr fun unit hunit => ?_
  obtain ⟨report, hreport, hranked⟩ := exists_rankUnit? machine (List.mem_filter.1 hunit).2
  rw [hranked, Function.comp, hreport]
  rfl

/-- With a name for each unit, rankings of a corpus in different orders are the same. -/
theorem sort_rankUnits_eq_of_perm {units units' : List CorpusUnit} (hperm : units'.Perm units)
    (hnames : (units.map CorpusUnit.name).Nodup) :
    (units'.filterMap scorer.rankUnit?).mergeSort (fun a b => (unitOrder a b).isLE)
      = (units.filterMap scorer.rankUnit?).mergeSort fun a b => (unitOrder a b).isLE := by
  refine (mergeSort_eq_of_perm (hperm.symm.filterMap _) fun a ha b hb hab => ?_).symm
  obtain ⟨unit, hunit, ha⟩ := List.mem_filterMap.1 ha
  obtain ⟨unit', hunit', hb⟩ := List.mem_filterMap.1 hb
  -- Equal in the order, the two have one name, so they come of one unit.
  have hname : unit.name = unit'.name := by
    rw [← name_of_rankUnit? ha, ← name_of_rankUnit? hb, name_eq_of_unitOrder hab]
  rw [List.inj_on_of_nodup_map hnames hunit hunit' hname, hb] at ha
  exact (Option.some.inj ha).symm

/-- **A corpus is ranked unit by unit.** On every machine and with every chunk factor, the ranking
of a corpus holds each unit that can be read once, under its name and with the report that it gets
by itself, wherever that is made. The greatest score comes first, and units with one score are in
the order of their names. Two corpora with the same readable units in one order have the same
ranking; and if no name is used twice, the order of the corpus does not matter either. -/
theorem ranked_units (scorer : Scorer α) (units : List CorpusUnit) (machine : Machine)
    (factor : Nat) :
    let ranked := { scorer with chunkFactor := factor }.rankUnits machine units
    (∀ (alone : Machine) (aloneFactor : Nat),
      (ranked.map fun r => (r.name, Except.ok r.report)).Perm
        ((units.filter scorer.canRead).map fun unit =>
          (unit.name, { scorer with chunkFactor := aloneFactor }.scoreUnit alone unit.source))) ∧
    (ranked.Pairwise fun a b => Arithmetic.order b.report.score a.report.score = .lt ∨
      Arithmetic.order b.report.score a.report.score = .eq ∧ (a.name < b.name ∨ a.name = b.name)) ∧
    (∀ units' : List CorpusUnit, units'.filter scorer.canRead = units.filter scorer.canRead →
      ∀ (machine' : Machine) (factor' : Nat),
        { scorer with chunkFactor := factor' }.rankUnits machine' units' = ranked) ∧
    ((units.map CorpusUnit.name).Nodup → ∀ units' : List CorpusUnit, units'.Perm units →
      ∀ (machine' : Machine) (factor' : Nat),
        { scorer with chunkFactor := factor' }.rankUnits machine' units' = ranked) := by
  intro ranked
  -- What is said about a unit does not depend on the chunk factor.
  have hranked : ∀ (units' : List CorpusUnit) (machine' : Machine) (factor' : Nat),
      { scorer with chunkFactor := factor' }.rankUnits machine' units'
        = (units'.filterMap scorer.rankUnit?).mergeSort fun a b => (unitOrder a b).isLE :=
    fun units' machine' factor' => rankUnits_eq_sort _ machine' units'
  have heq : ranked = _ := hranked units machine factor
  refine ⟨fun alone aloneFactor => ?_, ?_, fun units' hunits' machine' factor' => ?_,
    fun hnames units' hperm machine' factor' => ?_⟩
  · rw [heq]
    refine ((List.mergeSort_perm _ _).map _).trans (.of_eq ?_)
    exact map_filterMap_rankUnit? { scorer with chunkFactor := aloneFactor } alone units
  · rw [heq]
    exact pairwise_sort_units _
  · rw [hranked, heq, ← filterMap_rankUnit?_filter scorer units', hunits',
      filterMap_rankUnit?_filter]
  · rw [hranked, heq, sort_rankUnits_eq_of_perm hperm hnames]

/-- Three units, one of which ends inside a literal: the others are ranked, the same in the reverse
order and without the one that cannot be read. -/
theorem ranked_units_open_literal :
    let units : List CorpusUnit :=
      [⟨"first", "int x ;"⟩, ⟨"broken", "int \x22x"⟩, ⟨"second", "y = 1 ;"⟩]
    let ranked := { fussyScorer with chunkFactor := 5 }.rankUnits (.inTurn 4) units
    (units.map CorpusUnit.name).Nodup ∧ (ranked.map RankedUnit.name).Perm ["first", "second"] ∧
      { fussyScorer with chunkFactor := 1 }.rankUnits (.inTurn 1) units.reverse = ranked ∧
      { fussyScorer with chunkFactor := 2 }.rankUnits (.inTurn 3) (units.eraseIdx 1) = ranked := by
  intro units ranked
  -- The broken unit cannot be read; with or without it the same units are.
  have hreadable : units.filter fussyScorer.canRead
      = [⟨"first", "int x ;"⟩, ⟨"second", "y = 1 ;"⟩] := by cbv
  have herased : (units.eraseIdx 1).filter fussyScorer.canRead
      = [⟨"first", "int x ;"⟩, ⟨"second", "y = 1 ;"⟩] := by cbv
  have hnames : (units.map CorpusUnit.name).Nodup := by decide
  obtain ⟨hcontent, -, hsame, hperm⟩ := ranked_units fussyScorer units (.inTurn 4) 5
  refine ⟨hnames, ?_, hperm hnames _ (List.reverse_perm _) _ 1,
    hsame _ (herased.trans hreadable.symm) _ 2⟩
  have hcontent := (hcontent (.inTurn 1) 1).map Prod.fst
  rwa [hreadable, List.map_map] at hcontent

end NaturalNames.Scorer
