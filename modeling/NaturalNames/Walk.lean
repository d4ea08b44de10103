import NaturalNames.Corpus
import NaturalNames.Ordered.Map
import NaturalNames.Path

/-!
# `NaturalNames.Walk`: the files below a directory

A corpus is the files of one kind that a walk through a directory comes upon. Each is named by
the directory exactly as it was given and the way from there, so whoever asked for `src/./x` reads
of `src/./x/a.c`. The files come in the order of their ways, name by name.
-/

set_option autoImplicit false

namespace NaturalNames

/-- What a walk through a directory comes upon. -/
structure Walk where
  /-- The directory as it was given. -/
  directory : String
  /-- The files, by their way from there. If there is a file in place of the directory, it is the
  only one and its way is empty. -/
  files : SortedMap Path (List UInt8)

/-- A file under the name that a walk gives it. -/
structure FoundFile where
  name : String
  bytes : List UInt8

namespace Walk

/-- The name of the file at the end of a way. A slash that the directory ends with is not
repeated. -/
def nameOf (walk : Walk) (way : Path) : String :=
  if way = [] then walk.directory
  else if walk.directory.endsWith "/" then walk.directory ++ Path.toText way
  else walk.directory ++ "/" ++ Path.toText way

/-- The extension of the file at the end of a way. -/
def extension? (walk : Walk) (way : Path) : Option String :=
  (way.getLast? <|> (Path.names walk.directory).getLast?).bind Path.extension?

/-- The files with the given extension. -/
def list (walk : Walk) (extension : String) : List FoundFile :=
  walk.files.entries.filterMap fun (way, bytes) =>
    if walk.extension? way = some extension then some ⟨walk.nameOf way, bytes⟩ else none

/-- The files with the given extension as units of a corpus. Files that are not UTF-8 are left
out. -/
def units (walk : Walk) (extension : String) : List CorpusUnit :=
  (walk.list extension).filterMap fun file =>
    (String.fromUTF8? ⟨file.bytes.toArray⟩).map fun source => ⟨file.name, source⟩

end Walk

end NaturalNames
