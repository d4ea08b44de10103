/-!
# `NaturalNames.Text.Substring`: finding and replacing a text inside another

Names are found inside wrapped tokens, taken out of them and put back, so everything here looks
for a fixed text. The work is done on lists of characters, by recursion on the text searched;
the functions on `String` at the end only convert.

* `splitFirst` cuts at the first occurrence.
* `replaceAll` replaces the occurrences met from left to right. Occurrences never overlap: the
  search goes on behind the one just replaced. An empty text occurs before every character and
  at the end.
-/

set_option autoImplicit false

namespace NaturalNames.Text

/-! ### Lists of characters -/

/-- What stands before and behind the first occurrence of `pat`. -/
def splitFirst (pat : List Char) : List Char → Option (List Char × List Char)
  | [] => if pat = [] then some ([], []) else none
  | c :: rest =>
    match pat.isPrefixOf? (c :: rest) with
    | some behind => some ([], behind)
    | none => (splitFirst pat rest).map fun cut => (c :: cut.1, cut.2)

/-- Replacement of a non-empty `pat`. `pending` counts the characters of the last occurrence
that are still to be passed over. -/
def replaceFrom (pat new : List Char) : Nat → List Char → List Char
  | _, [] => []
  | pending + 1, _ :: rest => replaceFrom pat new pending rest
  | 0, c :: rest =>
    if pat.isPrefixOf (c :: rest) then new ++ replaceFrom pat new (pat.length - 1) rest
    else c :: replaceFrom pat new 0 rest

/-- Every occurrence of `pat` replaced by `new`, from left to right. -/
def replaceAll (pat new text : List Char) : List Char :=
  if pat = [] then new ++ text.flatMap fun c => c :: new
  else replaceFrom pat new 0 text

/-! ### Strings -/

/-- Whether `pat` stands somewhere in `text`. -/
def occurs (pat text : String) : Bool :=
  (splitFirst pat.toList text.toList).isSome

/-- What stands before and behind the first occurrence of `pat`. -/
def cutFirst (pat text : String) : Option (String × String) :=
  (splitFirst pat.toList text.toList).map fun cut => (String.ofList cut.1, String.ofList cut.2)

/-- Every occurrence of `pat` replaced by `new`, from left to right. -/
def replace (pat new text : String) : String :=
  String.ofList (replaceAll pat.toList new.toList text.toList)

/-- The text between a given beginning and a given end, if `text` has both and they do not
overlap. -/
def between (before behind text : String) : Option String :=
  (before.toList.isPrefixOf? text.toList).bind fun rest =>
    (behind.toList.isSuffixOf? rest).map String.ofList

end NaturalNames.Text
