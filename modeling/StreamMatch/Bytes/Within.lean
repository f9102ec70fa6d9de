-- Parts of byte strings that must be inside of the string, and new strings that
-- must fit in memory.
import StreamMatch.Bytes
import StreamMatch.Fault

namespace StreamMatch.Bytes

/-- The bytes in `[pos, pos + len)`, which must all exist. -/
def sliceWithin (bytes : Bytes) (pos len : Nat) : Checked Bytes := do
  Checked.require (decide (pos + len ≤ bytes.size)) .outOfBounds
  return bytes.slice pos len

/-- Replaces bytes that must all exist. -/
def replaceWithin (bytes : Bytes) (pos : Nat) (bs : List UInt8) : Checked Bytes := do
  Checked.require (decide (pos + bs.length ≤ bytes.size)) .outOfBounds
  return bytes.replace pos bs

/-- Replaces bytes that must all exist with those of a string. -/
def overwriteWithin (bytes : Bytes) (pos : Nat) (source : Bytes) : Checked Bytes := do
  Checked.require (decide (pos + source.size ≤ bytes.size)) .outOfBounds
  return bytes.overwrite pos source

/-- A string of zeros, which must fit in memory. -/
def zerosWithin (size : Nat) : Checked Bytes := do
  Checked.require (decide (size < sizeBound)) .overflow
  return zeros size

/-- The first `size` bytes, with zeros after them if there are not as many. They
must fit in memory. -/
def resizeWithin (bytes : Bytes) (size : Nat) : Checked Bytes := do
  Checked.require (decide (size < sizeBound)) .overflow
  return bytes.resize size

/-- Reads a number from bytes that must all exist. -/
def readWithin (bytes : Bytes) (pos width : Nat) : Checked Nat := do
  Checked.require (decide (pos + width ≤ bytes.size)) .outOfBounds
  return bytes.readNumber pos width

/-- Reads a word of eight bytes that must all exist. -/
def wordWithin (bytes : Bytes) (pos : Nat) : Checked UInt64 := do
  Checked.require (decide (pos + 8 ≤ bytes.size)) .outOfBounds
  return bytes.word pos

/-- Writes a number in bytes that must all exist. -/
def writeWithin (bytes : Bytes) (pos width n : Nat) : Checked Bytes := do
  Checked.require (decide (pos + width ≤ bytes.size)) .outOfBounds
  return bytes.writeNumber pos width n

theorem sliceWithin_eq_ok {bytes : Bytes} {pos len : Nat} (h : pos + len ≤ bytes.size) :
    sliceWithin bytes pos len = .ok (bytes.slice pos len) := by
  simp [sliceWithin, Checked.require, h, bind, Except.bind, pure, Except.pure]

theorem overwriteWithin_eq_replaceWithin (bytes : Bytes) (pos : Nat) (source : Bytes) :
    overwriteWithin bytes pos source = replaceWithin bytes pos source.toList := by
  by_cases h : pos + source.size ≤ bytes.size
  · simp [overwriteWithin, replaceWithin, Checked.require, h, bind, Except.bind,
      overwrite_eq_replace h]
  · simp [overwriteWithin, replaceWithin, Checked.require, h, bind, Except.bind]

theorem readWithin_eq_ok {bytes : Bytes} {pos width : Nat} (h : pos + width ≤ bytes.size) :
    readWithin bytes pos width = .ok (bytes.readNumber pos width) := by
  simp [readWithin, Checked.require, h, bind, Except.bind, pure, Except.pure]

theorem wordWithin_eq_ok {bytes : Bytes} {pos : Nat} (h : pos + 8 ≤ bytes.size) :
    wordWithin bytes pos = .ok (bytes.word pos) := by
  simp [wordWithin, Checked.require, h, bind, Except.bind, pure, Except.pure]

theorem writeWithin_eq_ok {bytes : Bytes} {pos width n : Nat} (h : pos + width ≤ bytes.size) :
    writeWithin bytes pos width n = .ok (bytes.writeNumber pos width n) := by
  simp [writeWithin, Checked.require, h, bind, Except.bind, pure, Except.pure]

end StreamMatch.Bytes
