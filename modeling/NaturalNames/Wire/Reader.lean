import NaturalNames.Wire.Varint

/-!
# `NaturalNames.Wire.Reader`: values as bytes

Every value says by itself where it ends, so values are written one behind the other without
separators: numbers as in `NaturalNames.Wire.Varint`, floats as their eight bytes, the low one
first, and texts and lists behind their length. A reader takes its value from the front of the
bytes and leaves the rest, or fails.
-/

set_option autoImplicit false

namespace NaturalNames.Wire

/-- Takes a value from the front of the bytes. -/
abbrev Reader := StateT (List UInt8) Option

namespace Reader

/-- A number of 64 bits. -/
def word64 : Reader Nat := readVarint 64

/-- A number of 32 bits. -/
def word32 : Reader Nat := readVarint 32

/-- The next `n` bytes. -/
def bytes (n : Nat) : Reader (List UInt8) := fun input =>
  if n ≤ input.length then some (input.take n, input.drop n) else none

/-- A whole number of `n` bytes, the low one first. -/
def littleEndian : List UInt8 → Nat
  | [] => 0
  | byte :: rest => byte.toNat + 256 * littleEndian rest

/-- A float of 64 bits. -/
def float : Reader Float := do
  return Float.ofBits (UInt64.ofNat (littleEndian (← bytes 8)))

/-- A text, which has to be UTF-8. -/
def text : Reader String := do
  let encoded ← bytes (← word64)
  match String.fromUTF8? ⟨encoded.toArray⟩ with
  | some text => return text
  | none => failure

/-- A value `n` times. -/
def times {α : Type} (item : Reader α) : Nat → Reader (List α)
  | 0 => return []
  | n + 1 => do
    let first ← item
    return first :: (← times item n)

/-- A list behind its length. -/
def list {α : Type} (item : Reader α) : Reader (List α) := do
  times item (← word64)

/-- A pair, one value behind the other. -/
def pair {α β : Type} (first : Reader α) (second : Reader β) : Reader (α × β) := do
  let a ← first
  return (a, ← second)

end Reader

/-! ### Writing -/

/-- `n` bytes of a whole number, the low one first. -/
def writeLittleEndian : Nat → Nat → List UInt8
  | 0, _ => []
  | n + 1, value => UInt8.ofNat (value % 256) :: writeLittleEndian n (value / 256)

/-- Writes a float as its eight bytes, the lowest first. -/
def writeFloat (x : Float) : List UInt8 := writeLittleEndian 8 x.toBits.toNat

/-- Writes a text as its length in bytes and the bytes. -/
def writeText (text : String) : List UInt8 :=
  let encoded := text.toUTF8.data.toList
  writeVarint encoded.length ++ encoded

/-- Writes a list as its length and the items. -/
def writeList {α : Type} (item : α → List UInt8) (items : List α) : List UInt8 :=
  writeVarint items.length ++ items.flatMap item

end NaturalNames.Wire
