import Mathlib.Data.List.Basic
import NaturalNames.FileTree
import NaturalNames.Proofs.Ordered.Map
import NaturalNames.Proofs.Outcome

/-!
# `NaturalNames.Proofs.FileTree.Corpus`: which files are the corpus of a directory

A walk through a directory cuts the path of the directory off the paths of the files below, and
sorts what is left. That does not change their order (`Path.compare_append`), so the walk has the
files of the tree in the order of the tree (`entries_ofList_entriesBelow`).

`IsCorpus` says which of them make up a corpus: those with the extension and a text in UTF-8, each
once and in the order of their paths. Whatever is there to be read gives such a corpus, if only an
empty one (`exists_isCorpus`), and reading fails if and only if nothing is there
(`readCorpus_eq_error_iff`).
-/

set_option autoImplicit false

namespace NaturalNames

/-! ### Paths below a place -/

/-- A common beginning does not matter to the order of paths. -/
theorem Path.compare_append (place way way' : Path) :
    compare (place ++ way) (place ++ way') = compare way way' := by
  induction place with
  | nil => rfl
  | cons name rest ih =>
    show List.compareLex compare (name :: (rest ++ way)) (name :: (rest ++ way')) = _
    rw [List.compareLex_cons_cons, Std.ReflOrd.compare_self]
    exact ih

namespace FileTree

variable {tree : FileTree} {directory extension : String} {place : Path} {walk : Walk}

/-- The files at a place and below, by their way from there. -/
def entriesBelow (tree : FileTree) (place : Path) : List (Path × List UInt8) :=
  tree.files.entries.filterMap fun (path, bytes) =>
    (place.isPrefixOf? path).map fun way => (way, bytes)

/-- The files below a place are those whose path begins with it. -/
theorem mem_entriesBelow_iff {way : Path} {bytes : List UInt8} :
    (way, bytes) ∈ tree.entriesBelow place ↔ (place ++ way, bytes) ∈ tree.files.entries := by
  rw [entriesBelow, List.mem_filterMap]
  constructor
  · rintro ⟨⟨path, _⟩, hmem, h⟩
    obtain ⟨way, hway, hentry⟩ := Option.map_eq_some_iff.1 h
    cases hentry
    rw [List.isPrefixOf?_eq_some_iff_append_eq.1 hway]
    exact hmem
  · intro hmem
    have hway : place.isPrefixOf? (place ++ way) = some way :=
      List.isPrefixOf?_eq_some_iff_append_eq.2 rfl
    exact ⟨_, hmem, Option.map_eq_some_iff.2 ⟨way, hway, rfl⟩⟩

/-- The files below a place are listed in the order of their paths. -/
theorem ascending_entriesBelow (tree : FileTree) (place : Path) :
    Assoc.Ascending (tree.entriesBelow place) := by
  -- Two ways are in the order of the paths that they were cut from.
  rw [entriesBelow, Assoc.Ascending, List.pairwise_filterMap]
  refine List.Pairwise.imp ?_ tree.files.ascending
  rintro ⟨path, bytes⟩ ⟨path', bytes'⟩ hlt e he e' he'
  obtain ⟨way, hway, rfl⟩ := Option.map_eq_some_iff.1 he
  obtain ⟨way', hway', rfl⟩ := Option.map_eq_some_iff.1 he'
  rw [← List.isPrefixOf?_eq_some_iff_append_eq.1 hway,
    ← List.isPrefixOf?_eq_some_iff_append_eq.1 hway', Path.compare_append] at hlt
  exact hlt

/-- The files below a place are the entries of a map already. -/
theorem entries_ofList_entriesBelow (tree : FileTree) (place : Path) :
    (SortedMap.ofList (tree.entriesBelow place)).entries = tree.entriesBelow place :=
  congrArg SortedMap.entries
    (SortedMap.ofList_perm_entries (m := ⟨_, tree.ascending_entriesBelow place⟩) (.refl _))

/-! ### Walks -/

/-- A directory that is there can be walked, and the walk meets the files below it. -/
theorem walk_eq_ok (hplace : tree.resolve directory = some place)
    (hpresent : tree.isPresent directory = true) :
    tree.walk directory = .ok ⟨directory, .ofList (tree.entriesBelow place)⟩ := by
  rw [isPresent, hplace, Option.any_some] at hpresent
  rw [walk, hplace]
  exact if_pos hpresent

/-- A directory that is not there cannot be walked. -/
theorem walk_eq_error (h : tree.isPresent directory = false) :
    tree.walk directory = .error .io := by
  rw [isPresent] at h
  rw [walk]
  cases hplace : tree.resolve directory with
  | none => rfl
  | some place =>
    rw [hplace, Option.any_some] at h
    exact if_neg (Bool.eq_false_iff.1 h)

/-- What is there has a place. -/
theorem exists_resolve_of_isPresent (h : tree.isPresent directory = true) :
    ∃ place, tree.resolve directory = some place := by
  rw [isPresent, Option.any_eq_true] at h
  obtain ⟨place, hplace, -⟩ := h
  exact ⟨place, hplace⟩

/-! ### Corpora -/

/-- These are the units of a corpus, each with the path of its file: the files at a place and below
that have the extension and are UTF-8. -/
structure IsCorpus (tree : FileTree) (place : Path) (walk : Walk) (extension : String)
    (found : List (Path × CorpusUnit)) : Prop where
  /-- The files come in the order of their paths, and none of them twice. -/
  ascending : found.Pairwise fun a b => compare a.1 b.1 = .lt
  mem_iff : ∀ path unit, (path, unit) ∈ found ↔ ∃ way bytes,
    path = place ++ way ∧ tree.files.get? path = some bytes ∧
    walk.extension? way = some extension ∧
    String.fromUTF8? ⟨bytes.toArray⟩ = some unit.source ∧ unit.name = walk.nameOf way

/-- The unit of a file, if it belongs to the corpus. -/
def unitOf? (walk : Walk) (extension : String) (way : Path) (bytes : List UInt8) :
    Option CorpusUnit :=
  if walk.extension? way = some extension then
    (String.fromUTF8? ⟨bytes.toArray⟩).map fun source => ⟨walk.nameOf way, source⟩
  else none

/-- A file is a unit of the corpus if it has the extension and is valid text. -/
theorem unitOf?_eq_some_iff {way : Path} {bytes : List UInt8} {unit : CorpusUnit} :
    unitOf? walk extension way bytes = some unit ↔ walk.extension? way = some extension ∧
      String.fromUTF8? ⟨bytes.toArray⟩ = some unit.source ∧ unit.name = walk.nameOf way := by
  rw [unitOf?]
  split
  next hextension =>
    rw [Option.map_eq_some_iff]
    constructor
    · rintro ⟨source, hsource, rfl⟩
      exact ⟨hextension, hsource, rfl⟩
    · rintro ⟨-, hsource, hname⟩
      exact ⟨unit.source, hsource, hname ▸ rfl⟩
  next hextension => simp [hextension]

/-- The units of a walk are those of its files, in the order of their paths. -/
theorem units_eq_filterMap (walk : Walk) (extension : String) :
    walk.units extension
      = walk.files.entries.filterMap fun e => unitOf? walk extension e.1 e.2 := by
  rw [Walk.units, Walk.list, List.filterMap_filterMap]
  apply List.filterMap_congr
  rintro ⟨way, bytes⟩ -
  rw [unitOf?]
  dsimp only
  split <;> rfl

/-- What is there to be read gives a corpus. -/
theorem exists_isCorpus (hplace : tree.resolve directory = some place)
    (hpresent : tree.isPresent directory = true) :
    ∃ walk found, walk.directory = directory ∧ IsCorpus tree place walk extension found ∧
      tree.readCorpus directory extension = .ok (found.map Prod.snd) := by
  -- The walk knows the ways only, so the paths are put together again.
  let walk : Walk := ⟨directory, .ofList (tree.entriesBelow place)⟩
  have hentries : walk.files.entries = tree.entriesBelow place :=
    tree.entries_ofList_entriesBelow place
  refine ⟨walk, (tree.entriesBelow place).filterMap fun e =>
    (unitOf? walk extension e.1 e.2).map fun unit => (place ++ e.1, unit), rfl, ⟨?_, ?_⟩, ?_⟩
  · rw [List.pairwise_filterMap]
    refine (tree.ascending_entriesBelow place).imp fun {e e'} hlt found hfound found' hfound' => ?_
    obtain ⟨unit, -, rfl⟩ := Option.map_eq_some_iff.1 hfound
    obtain ⟨unit', -, rfl⟩ := Option.map_eq_some_iff.1 hfound'
    rw [Path.compare_append]
    exact hlt
  · intro path unit
    rw [List.mem_filterMap]
    constructor
    · rintro ⟨⟨way, bytes⟩, hmem, h⟩
      obtain ⟨unit, hunit, hentry⟩ := Option.map_eq_some_iff.1 h
      cases hentry
      exact ⟨way, bytes, rfl, SortedMap.get?_eq_some_iff.2 (mem_entriesBelow_iff.1 hmem),
        unitOf?_eq_some_iff.1 hunit⟩
    · rintro ⟨way, bytes, rfl, hget, hunit⟩
      refine ⟨(way, bytes), mem_entriesBelow_iff.2 (SortedMap.get?_eq_some_iff.1 hget), ?_⟩
      rw [unitOf?_eq_some_iff.2 hunit]
      rfl
  · rw [readCorpus, walk_eq_ok hplace hpresent]
    show Except.ok (walk.units extension) = _
    rw [units_eq_filterMap, hentries, List.map_filterMap]
    congr 1
    apply List.filterMap_congr
    intro e _
    cases unitOf? walk extension e.1 e.2 <;> rfl

/-- Only what is not there cannot be read. -/
theorem readCorpus_eq_error_iff {e : Error} :
    tree.readCorpus directory extension = .error e ↔
      tree.isPresent directory = false ∧ e = .io := by
  rw [readCorpus, except_map_eq_error_iff]
  cases hpresent : tree.isPresent directory with
  | false =>
    rw [walk_eq_error hpresent]
    simp [eq_comm]
  | true =>
    obtain ⟨place, hplace⟩ := exists_resolve_of_isPresent hpresent
    rw [walk_eq_ok hplace hpresent]
    simp

end FileTree

end NaturalNames
