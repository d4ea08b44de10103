/-!
# `NaturalNames.Path`: the way to a file

A path is written as names between slashes. Some of these names are steps rather than names: an
empty one and `.` stay in place, `..` goes back up. A `Path` is what is left once the steps are
taken: the plain names that lead to a place from the root.
-/

set_option autoImplicit false

namespace NaturalNames

/-- The names that lead to a file or directory from the root. -/
abbrev Path := List String

namespace Path

/-- A written path may have this many bytes. -/
def maxTextBytes : Nat := 4095

/-- A single name may have this many bytes. -/
def maxNameBytes : Nat := 255

/-- The names between the slashes of a text, steps included. A slash at the end leaves an empty
name behind it. -/
def names (text : String) : List String := (text.toList.splitOn '/').map String.ofList

/-- A path that starts with a slash counts from the root. -/
def isAbsolute (text : String) : Bool := text.toList.head? = some '/'

/-- Whether a file or directory can have a name: it must not be too long or hold a NUL. -/
def isName (name : String) : Bool :=
  decide (name.utf8ByteSize ≤ maxNameBytes) && !name.toList.contains '\x00'

/-- Where one name leads. There is nothing above the root, so `..` stays there. -/
def step (place : Path) (name : String) : Path :=
  if name = "" || name = "." then place
  else if name = ".." then place.dropLast
  else place ++ [name]

/-- Where a text leads, whatever stands on the way. -/
def follow (place : Path) (text : String) : Path := (names text).foldl step place

/-- A path as a text. -/
def toText (path : Path) : String := "/".intercalate path

/-- What stands behind the last dot of a file name, if anything stands in front of that dot. -/
def extension? (name : String) : Option String :=
  let backward := name.toList.reverse
  let ending := backward.takeWhile (· ≠ '.')
  match backward.drop ending.length with
  | _dot :: _ :: _ => some (String.ofList ending.reverse)
  | _ => none

end Path

end NaturalNames
