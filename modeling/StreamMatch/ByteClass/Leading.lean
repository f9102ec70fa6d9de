-- How many bytes at the start of a string belong to a class. A class of one
-- byte is compared eight bytes at a time: the loaded word differs from a word
-- of eight such bytes first at the byte that is not in the class.
import StreamMatch.Bytes.Load
import StreamMatch.ByteClass

namespace StreamMatch

/-- How many of the `width` low bits of a number are zero before the first one
that is set. -/
def lowZeroBits : (width n : Nat) → Nat
  | 0, _ => 0
  | width + 1, n => if n % 2 = 1 then 0 else lowZeroBits width (n / 2) + 1

/-- How many low bytes of a word of eight bytes are zero. -/
def lowZeroBytes (word : Nat) : Nat := lowZeroBits 64 word / 8

/-- A word of eight bytes that are all the given one. -/
def wordOf (b : UInt8) : Nat := Bytes.number (List.replicate 8 b)

namespace ByteClass

/-- The first position from `i` on whose byte is not in the class. -/
def scanFrom (c : ByteClass) (bytes : Bytes) (i : Nat) : Nat :=
  if h : i < bytes.size then
    if c.contains bytes[i] then c.scanFrom bytes (i + 1) else i
  else i
termination_by bytes.size - i

/-- The first position from `i` on whose byte is not `b`, looking at eight
bytes at a time. The bytes past the end of the string are zero in the last
word, where they could be taken for `b`, so they are not counted. -/
def scanWords (b : UInt8) (bytes : Bytes) (i : Nat) : Checked Nat := do
  if h : i + 8 ≤ bytes.size then
    let difference := (← Load.exact .eight bytes i 0 bytes.size) ^^^ wordOf b
    if difference ≠ 0 then return i + lowZeroBytes difference
    scanWords b bytes (i + 8)
  else if i < bytes.size then
    let difference := (← Load.forward .eight bytes i i bytes.size) ^^^ wordOf b
    let alike := if difference = 0 then 8 else lowZeroBytes difference
    return i + min alike (bytes.size - i)
  else return bytes.size
termination_by bytes.size - i

/-- How many consecutive bytes from position `start` on are in the class. -/
def leadingFrom (c : ByteClass) (bytes : Bytes) (start : Nat) : Checked Nat := do
  Checked.require (decide (start ≤ bytes.size)) .outOfBounds
  match c.only? with
  | some b => return (← scanWords b bytes start) - start
  | none => return c.scanFrom bytes start - start

/-- How many bytes at the start of a string are in the class. -/
def leading (c : ByteClass) (bytes : Bytes) : Checked Nat := c.leadingFrom bytes 0

end ByteClass

end StreamMatch
