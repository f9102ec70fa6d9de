-- The layout of the state of a stream, a region of bytes whose size depends on
-- the program alone:
--
--   0       4    magic bytes
--   4       4    checksum of the program
--   8       8    stream offset, how many bytes were scanned
--   16      8    resume key: end
--   24      4    resume key: rank
--   28      1    flags
--   29      1    padding
--   30      2    length of the history
--   32      H    history, the last bytes scanned
--   32 + H  8 P  one entry for each pattern
--   ...          the state of each repeat
import StreamMatch.Repeat.Tracker

namespace StreamMatch

/-- A range of positions in a region. -/
structure Extent where
  start : Nat
  size : Nat
deriving DecidableEq, Repr

/-- The position after the last one of a range. -/
def Extent.stop (e : Extent) : Nat := e.start + e.size

/-- The places of the parts of a state. -/
structure Layout where
  /-- The most bytes that the history can have. -/
  historySize : Nat
  /-- How many patterns have an entry. -/
  patternCount : Nat
  /-- The places of the states of the repeats, in the order of their
  identifiers. -/
  repeats : Array Extent
  /-- The size of the whole state. -/
  size : Nat
deriving DecidableEq, Repr

namespace Layout

/-- The position of the history, after the fields of a fixed size. -/
def historyAt : Nat := 32

/-- The position of the entry of a pattern. -/
def patternAt (historySize i : Nat) : Nat := historyAt + historySize + 8 * i

/-- The ranges of consecutive parts with the given sizes, from a position on. -/
def extentsFrom (start : Nat) : List Nat → List Extent
  | [] => []
  | size :: rest => ⟨start, size⟩ :: extentsFrom (start + size) rest

/-- The layout of a state with the given parts. -/
def ofParts (historySize patternCount : Nat) (repeats : List Repeat) : Layout :=
  let sizes := repeats.map Repeat.stateSize
  let start := patternAt historySize patternCount
  { historySize
    patternCount
    repeats := (extentsFrom start sizes).toArray
    size := sizes.foldl (· + ·) start }

/-- The state of a repeat inside a region. The repeat must have a place in the
layout, of the right size and inside the region. -/
def tracker (layout : Layout) (r : Repeat) (region : Bytes) : Checked Tracker := do
  let extent ← Checked.some? layout.repeats[r.id.toNat]? .outOfBounds
  Checked.require (decide (extent.stop ≤ region.size)) .outOfBounds
  Checked.require (extent.size == r.stateSize) .brokenCondition
  return ⟨r, extent.start⟩

theorem extentsFrom_length (start : Nat) (sizes : List Nat) :
    (extentsFrom start sizes).length = sizes.length := by
  induction sizes generalizing start with
  | nil => rfl
  | cons size rest ih => simp [extentsFrom, ih]

end Layout

end StreamMatch
