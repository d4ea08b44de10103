import NaturalNames.Error
import NaturalNames.Ordered.Set
import NaturalNames.Walk

/-!
# `NaturalNames.FileTree`: files by path

The part of a file system that corpora and models live in: a map from paths to bytes, the
directories, which may be empty, and the one of them that work is done in.

A written path is followed name by name, and each name, even one that stays in place, is looked up
in a directory. So `a.c/` and `a.c/.` lead nowhere if `a.c` is a file, and `x/..` leads nowhere
without a directory `x`. `resolve_eq_follow` says that a path that does lead somewhere leads where
its names say.
-/

set_option autoImplicit false

namespace NaturalNames

/-- Files with their bytes, and directories. -/
structure FileTree where
  files : SortedMap Path (List UInt8)
  directories : SortedSet Path
  /-- The directory that paths count from, unless they start with a slash. -/
  home : Path
deriving DecidableEq

namespace FileTree

/-- A tree without files. Its directories are those that lead to the home. -/
def empty (home : Path) : FileTree where
  files := .empty
  directories := .ofList ((List.range (home.length + 1)).map home.take)
  home := home

/-- Whether there is a file at a place. -/
def isFile (tree : FileTree) (path : Path) : Bool := (tree.files.get? path).isSome

/-- Whether there is a directory at a place. -/
def isDirectory (tree : FileTree) (path : Path) : Bool := tree.directories.contains path

/-! ### Written paths -/

/-- Looks a name up in a directory. The place that it leads to may be empty. -/
def step? (tree : FileTree) (place : Path) (name : String) : Option Path :=
  if tree.isDirectory place && Path.isName name then some (place.step name) else none

/-- The directory that a text counts from. -/
def origin (tree : FileTree) (text : String) : Path :=
  if Path.isAbsolute text then [] else tree.home

/-- The place that a text leads to, if it leads anywhere. -/
def resolve (tree : FileTree) (text : String) : Option Path :=
  if text = "" || Path.maxTextBytes < text.utf8ByteSize then none
  else (Path.names text).foldlM tree.step? (tree.origin text)

/-- Where every step of a walk succeeds, the place is what the steps alone lead to. -/
theorem eq_foldl_step_of_foldlM {tree : FileTree} {names : List String} {start place : Path}
    (h : names.foldlM tree.step? start = some place) : place = names.foldl Path.step start := by
  induction names generalizing start with
  | nil => exact (Option.some.inj h).symm
  | cons name rest ih =>
    rw [List.foldlM_cons] at h
    obtain ⟨next, hnext, hrest⟩ := Option.bind_eq_some_iff.1 h
    unfold step? at hnext
    split at hnext
    · rw [List.foldl_cons, Option.some.inj hnext]
      exact ih hrest
    · exact nomatch hnext

/-- A path that leads somewhere leads where its names say. -/
theorem resolve_eq_follow {tree : FileTree} {text : String} {place : Path}
    (h : tree.resolve text = some place) : place = (tree.origin text).follow text := by
  unfold resolve at h
  split at h
  · exact nomatch h
  · exact eq_foldl_step_of_foldlM h

/-- Whether a text leads to a file or directory. -/
def isPresent (tree : FileTree) (text : String) : Bool :=
  (tree.resolve text).any fun place => tree.isFile place || tree.isDirectory place

/-! ### Reading and writing -/

/-- The bytes of a file. -/
def read (tree : FileTree) (text : String) : Except Error (List UInt8) :=
  match (tree.resolve text).bind tree.files.get? with
  | some bytes => .ok bytes
  | none => .error .io

/-- Puts a file at a place, whatever is there. -/
def put (tree : FileTree) (place : Path) (bytes : List UInt8) : FileTree :=
  { tree with files := tree.files.insert place bytes }

/-- Writes a file. Its directory has to be there, and it must not be a directory itself. -/
def write (tree : FileTree) (text : String) (bytes : List UInt8) : Except Error FileTree :=
  match tree.resolve text with
  | some place => if tree.isDirectory place then .error .io else .ok (tree.put place bytes)
  | none => .error .io

/-- Enters a directory by name, and makes it if nothing is there. -/
def enter (tree : FileTree) (place : Path) (name : String) : Option (FileTree × Path) :=
  (tree.step? place name).bind fun next =>
    if tree.isFile next then none
    else some ({ tree with directories := tree.directories.insert next }, next)

/-- Writes a file and makes the directories that are missing on the way. Directories that the way
leaves again by `..` are made as well. -/
def add (tree : FileTree) (text : String) (bytes : List UInt8) : Except Error FileTree :=
  let way := (Path.names text).dropLast
  match way.foldlM (fun (made, place) name => made.enter place name) (tree, tree.origin text) with
  | some (made, _) => made.write text bytes
  | none => .error .io

/-! ### Corpora -/

/-- The files in a directory and below. -/
def walk (tree : FileTree) (directory : String) : Except Error Walk :=
  match tree.resolve directory with
  | some place =>
    if tree.isFile place || tree.isDirectory place then
      .ok ⟨directory, .ofList <| tree.files.entries.filterMap fun (path, bytes) =>
        (place.isPrefixOf? path).map fun way => (way, bytes)⟩
    else .error .io
  | none => .error .io

/-- The files with the given extension in a directory and below. -/
def list (tree : FileTree) (directory extension : String) : Except Error (List FoundFile) :=
  (tree.walk directory).map fun walk => walk.list extension

/-- The files with the given extension in a directory and below, as units of a corpus. -/
def readCorpus (tree : FileTree) (directory extension : String) :
    Except Error (List CorpusUnit) :=
  (tree.walk directory).map fun walk => walk.units extension

end FileTree

end NaturalNames
