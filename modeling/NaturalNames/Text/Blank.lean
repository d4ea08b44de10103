import NaturalNames.Text.Ranges

/-!
# `NaturalNames.Text.Blank`: white space

Unicode gives the property *White_Space* to 25 characters: the ASCII controls from tab to carriage
return, the space, and the separators listed below.
-/

set_option autoImplicit false

namespace NaturalNames.Text

/-- The code points that have the property White_Space, in ascending order. -/
def blankRanges : Ranges := [
  (0x9, 0xd), (0x20, 0x20), (0x85, 0x85), (0xa0, 0xa0), (0x1680, 0x1680), (0x2000, 0x200a),
  (0x2028, 0x2029), (0x202f, 0x202f), (0x205f, 0x205f), (0x3000, 0x3000)]

end NaturalNames.Text
