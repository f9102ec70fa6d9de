-- The bytes that a scan can see: the history of the stream followed by a chunk
-- of data, addressed by stream offsets.
import StreamMatch.Bytes.Within
import StreamMatch.ByteClass.Leading

namespace StreamMatch

/-- The history and the chunk. The history fits before the chunk. -/
structure Input where
  history : Bytes
  data : Bytes
  /-- The stream offset of the first byte of the chunk. -/
  chunkStart : Nat
  history_le : history.size ≤ chunkStart

namespace Input

/-- The input of a scan. The history must be inside the stream. -/
def make (history data : Bytes) (chunkStart : Nat) : Checked Input :=
  if h : history.size ≤ chunkStart then .ok ⟨history, data, chunkStart, h⟩
  else .error .overflow

variable (i : Input)

/-- The offset of the first byte of the history. -/
def floor : Nat := i.chunkStart - i.history.size

/-- The offset that follows the last byte of the chunk. A chunk can start at an
offset that leaves no room for all of its bytes, and then it has no end. -/
def chunkEnd : Checked Nat := Word.add i.chunkStart i.data.size

theorem chunkEnd_eq_ok {i : Input} (h : i.chunkStart + i.data.size < Word.bound) :
    i.chunkEnd = .ok (i.chunkStart + i.data.size) := Word.add_eq_ok h

/-- The position in the history of an offset before the chunk. -/
def historyPos (offset : Nat) : Checked Nat := Word.sub offset i.floor

/-- The byte at an offset. -/
def byteAt (offset : Nat) : Checked UInt8 := do
  if i.chunkStart ≤ offset then
    Checked.some? i.data[offset - i.chunkStart]? .outOfBounds
  else
    Checked.some? i.history[← i.historyPos offset]? .outOfBounds

/-- The `len` bytes from an offset on. -/
def bytesAt (offset len : Nat) : Checked Bytes := do
  if offset < i.chunkStart then
    let pos ← i.historyPos offset
    let n := min len (i.history.size - pos)
    let head ← i.history.sliceWithin pos n
    if len - n = 0 then return head
    return head ++ (← i.data.sliceWithin (offset + n - i.chunkStart) (len - n))
  else if len = 0 then return .empty
  else i.data.sliceWithin (offset - i.chunkStart) len

/-- How many consecutive bytes from an offset on are in a class. -/
def runLength (offset : Nat) (c : ByteClass) : Checked Nat := do
  if offset < i.chunkStart then
    let pos ← i.historyPos offset
    let n ← c.leadingFrom i.history pos
    if n < i.history.size - pos then return n
    return n + (← c.leading i.data)
  else c.leadingFrom i.data (offset - i.chunkStart)

end Input

end StreamMatch
