-- Loads of 1, 2, 4, 8 or 16 bytes that are safe near the edges of a buffer.
-- A load assembles the bytes at `pos`, `pos + 1`, ... into a number, the first
-- byte being the least significant one. Each load is given the valid range
-- `[lo, hi)` of the buffer. An exact load needs all its bytes in that range,
-- and the cautious ones put a zero for each byte outside of it.
import StreamMatch.Bytes.Within

namespace StreamMatch

/-- How many bytes a load assembles. -/
inductive LoadWidth where
  | one
  | two
  | four
  | eight
  | sixteen
deriving DecidableEq, Repr

/-- The number of bytes of a width. -/
def LoadWidth.bytes : LoadWidth → Nat
  | .one => 1
  | .two => 2
  | .four => 4
  | .eight => 8
  | .sixteen => 16

/-- The kinds of loads. -/
inductive LoadMode where
  /-- All the bytes are in the valid range. -/
  | exact
  /-- Like `exact`, at an address that is a multiple of the width. -/
  | aligned
  /-- Bytes at or after the end of the range are zero. -/
  | forward
  /-- Bytes before the start of the range are zero. -/
  | backward
  /-- All the bytes outside the range are zero. -/
  | anywhere
deriving DecidableEq, Repr

namespace Load

variable (width : LoadWidth) (buffer : Bytes)

/-- Fails unless all the bytes of a load are in `[lo, hi)` and in the buffer. -/
def requireExact (pos lo hi : Nat) : Checked Unit := do
  Checked.require (decide (lo ≤ pos ∧ pos + width.bytes ≤ hi)) .brokenCondition
  Checked.require (decide (pos + width.bytes ≤ buffer.size)) .outOfBounds

/-- Loads at a position whose bytes are all in `[lo, hi)` and in the buffer. -/
def exact (pos lo hi : Nat) : Checked Nat := do
  requireExact width buffer pos lo hi
  return buffer.readNumber pos width.bytes

/-- An exact load of eight bytes gives a word. -/
theorem exact_eight (pos lo hi : Nat) :
    exact .eight buffer pos lo hi =
      (requireExact .eight buffer pos lo hi).map fun _ => (buffer.word pos).toNat := by
  rw [Bytes.word_toNat, exact]
  cases requireExact .eight buffer pos lo hi <;> rfl

/-- An exact load at a position whose address is a multiple of the width. The first
byte of the buffer is at the given address. -/
def aligned (address pos lo hi : Nat) : Checked Nat := do
  Checked.require ((← Word.add address pos) % width.bytes == 0) .brokenCondition
  exact width buffer pos lo hi

/-! ## Cautious loads -/

/-- The most bytes that a load assembles. -/
def maxWidth : Nat := 16

/-- The number in some bytes, which must be as many as the width says. -/
def assemble (bytes : Bytes) : Checked Nat := do
  Checked.require (bytes.size == width.bytes) .brokenCondition
  return bytes.readNumber 0 width.bytes

/-- The bytes of the buffer between two positions. -/
def between (first last : Int) : Checked Bytes := do
  let start := Signed.toWord first
  buffer.sliceWithin start (← Word.sub (Signed.toWord last) start)

/-- Returns whether the bytes between two positions are all those of a load at
position `pos`. -/
def isWhole (pos first last : Int) : Checked Bool :=
  if first = pos then do return (← Signed.sub last first) == (width.bytes : Int)
  else return false

/-- Loads at position `pos` when only the bytes between two positions are valid.
They are put in their places among zeros. -/
def padded (pos first last : Int) : Checked Nat := do
  let missing := Signed.toWord (← Signed.sub first pos)
  let bytes ← (Bytes.zeros maxWidth).overwriteWithin missing (← between buffer first last)
  assemble width (← bytes.sliceWithin 0 width.bytes)

/-- Loads at any position. Only the bytes that are in `[lo, hi)` and in the
buffer are read, all the others count as zero. -/
def cautious (pos : Int) (lo hi : Nat) : Checked Nat := do
  let hi := min hi buffer.size
  if hi ≤ lo then return 0
  let first := max pos (Signed.ofWord lo)
  let last := min (Signed.addSat pos width.bytes) (Signed.ofWord hi)
  if ← isWhole width pos first last then assemble width (← between buffer first last)
  else if last ≤ first then return 0
  else padded width buffer pos first last

/-- Loads at a position that is not before `lo`, where the bytes at or after
`hi` are zero. No byte before the position is read, so it is the start of the
range. A position that is too large for a signed number is after all bytes. -/
def forward (pos lo hi : Nat) : Checked Nat := do
  Checked.require (decide (lo ≤ pos)) .brokenCondition
  if pos ≤ Signed.largest then cautious width buffer pos pos hi else return 0

/-- Loads at a position that may be before `lo`, whose last byte is before
`hi`. The bytes before `lo` are zero. -/
def backward (pos : Int) (lo hi : Nat) : Checked Nat := do
  Checked.require (decide (Signed.addSat pos width.bytes ≤ Signed.ofWord hi)) .brokenCondition
  cautious width buffer pos lo hi

/-! ## All kinds -/

/-- The position as an unsigned number, which it has to be. -/
def unsigned (pos : Int) : Checked Nat :=
  if 0 ≤ pos then .ok pos.toNat else .error .brokenCondition

/-- Performs a load of the given kind from a buffer whose first byte is at the
given address. Only the kinds that put zeros before the range accept a negative
position. -/
def perform (address : Nat) (mode : LoadMode) (pos : Int) (lo hi : Nat) : Checked Nat := do
  match mode with
  | .exact => exact width buffer (← unsigned pos) lo hi
  | .aligned => aligned width buffer address (← unsigned pos) lo hi
  | .forward => forward width buffer (← unsigned pos) lo hi
  | .backward => backward width buffer pos lo hi
  | .anywhere => cautious width buffer pos lo hi

/-- Performs a load of the given kind from a buffer that starts at a multiple of
all widths. -/
def inMode (mode : LoadMode) (pos : Int) (lo hi : Nat) : Checked Nat :=
  perform width buffer 0 mode pos lo hi

end Load

end StreamMatch
