/-!
# `NaturalNames.Wire.Varint`: whole numbers as bytes

A whole number is written seven bits at a time, the low ones first. Every byte but the last has
its top bit set. A number may be written longer than needed, with zeros on top; but it takes no
more bytes than the greatest number of its width does, and it must not exceed that number.
-/

set_option autoImplicit false

namespace NaturalNames.Wire

/-- The bytes of a number, no more than needed. -/
def writeVarint (n : Nat) : List UInt8 :=
  if n < 128 then [UInt8.ofNat n]
  else UInt8.ofNat (128 + n % 128) :: writeVarint (n / 128)
termination_by n

/-- Reads a number of at most `limit` bytes; gives what follows it, too. -/
def readDigits : Nat → List UInt8 → Option (Nat × List UInt8)
  | 0, _ => none
  | _ + 1, [] => none
  | limit + 1, byte :: rest =>
    if byte.toNat < 128 then some (byte.toNat, rest)
    else
      (readDigits limit rest).map fun (high, rest') => (byte.toNat - 128 + 128 * high, rest')

/-- Reads a number of a width given in bits. -/
def readVarint (bits : Nat) (bytes : List UInt8) : Option (Nat × List UInt8) :=
  (readDigits ((bits + 6) / 7) bytes).filter fun read => read.1 < Nat.pow 2 bits

end NaturalNames.Wire
