import NaturalNames.Text.Alphabetic
import NaturalNames.Text.Numeric
import NaturalNames.Text.Blank

/-!
# `NaturalNames.Text.Class`: the character classes of program text

Words of a program may be written in any script, so the classes are Unicode's. For ASCII they
agree with the tests of `Char`, which keeps the tables out of the common case.
-/

set_option autoImplicit false

namespace NaturalNames.Text

/-- A letter of any script. -/
def isAlphabetic (c : Char) : Bool :=
  if c.toNat < 128 then c.isAlpha else alphabeticRanges.hold c

/-- A digit or number sign of any script. -/
def isNumeric (c : Char) : Bool :=
  if c.toNat < 128 then c.isDigit else numericRanges.hold c

/-- A letter or number of any script. -/
def isAlphanumeric (c : Char) : Bool :=
  isAlphabetic c || isNumeric c

/-- A white-space character, which separates tokens and belongs to none. -/
def isBlank (c : Char) : Bool :=
  blankRanges.hold c

end NaturalNames.Text
