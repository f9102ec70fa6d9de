-- The fields of the state of a stream.
import StreamMatch.Bytes.Within
import StreamMatch.State.Layout

namespace StreamMatch

/-- What is remembered about a pattern. -/
structure PatternEntry where
  /-- The end of the last match that was reported. -/
  lastEnd : Option Nat
  /-- The pattern is not reported anymore. -/
  exhausted : Bool
deriving DecidableEq, Repr

namespace PatternEntry

/-- The bit of an entry that is set for exhausted patterns. The other bits are
the end of the last match plus one. -/
def exhaustedBit : Nat := 0x8000000000000000

/-- The entry that is written as a word. -/
def ofWord (word : UInt64) : PatternEntry :=
  ⟨predecessor? (word % 0x8000000000000000).toNat, decide (0x8000000000000000 ≤ word)⟩

theorem ofWord_eq (word : UInt64) :
    ofWord word =
      ⟨predecessor? (word.toNat % exhaustedBit), decide (exhaustedBit ≤ word.toNat)⟩ := by
  have hlast : (word % 0x8000000000000000).toNat = word.toNat % exhaustedBit := UInt64.toNat_mod ..
  rw [ofWord, hlast]
  congr 1

/-- The number that an entry is written as. -/
def toNumber (entry : PatternEntry) : Checked Nat := do
  let n ← match entry.lastEnd with
    | some last => Word.add last 1
    | none => .ok 0
  return if entry.exhausted then n % exhaustedBit + exhaustedBit else n

end PatternEntry

namespace StreamState

/-- The first bytes of every state, `MPSS`. -/
def magic : List UInt8 := [0x4d, 0x50, 0x53, 0x53]

/-- The state of a stream that has not seen any byte, with zeros after the
magic bytes and the checksum. -/
def initial (size : Nat) (checksum : UInt32) : Bytes :=
  Bytes.replace (.zeros size) 0 (magic ++ Bytes.digits 4 checksum.toNat)

/-- Puts a stream in its first state. -/
def reset (region : Bytes) (checksum : UInt32) : Checked Bytes := do
  Checked.require (decide (8 ≤ region.size)) .outOfBounds
  return initial region.size checksum

@[simp] theorem size_initial (size : Nat) (checksum : UInt32) :
    (initial size checksum).size = size := by
  unfold initial
  rw [Bytes.replace_size, Bytes.zeros_size]

theorem reset_eq {region : Bytes} (h : 8 ≤ region.size) (checksum : UInt32) :
    reset region checksum = .ok (initial region.size checksum) := by
  simp [reset, Checked.require, h, bind, Except.bind, pure, Except.pure]

theorem size_of_reset {region region' : Bytes} {checksum : UInt32}
    (h : reset region checksum = .ok region') : region'.size = region.size := by
  by_cases hsize : 8 ≤ region.size
  · rw [reset_eq hsize, Except.ok.injEq] at h
    rw [← h, size_initial]
  · simp [reset, Checked.require, hsize, bind, Except.bind] at h

/-! ## Fields of a fixed size -/

/-- How many bytes were scanned. -/
def offset (region : Bytes) : Checked Nat := do
  Checked.require (decide (Layout.historyAt ≤ region.size)) .brokenCondition
  region.readWithin 8 8

/-- Replaces the stream offset. -/
def setOffset (region : Bytes) (offset : Nat) : Checked Bytes := region.writeWithin 8 8 offset

/-- The key of the first match that was not processed yet. -/
def resume (region : Bytes) : Checked Key := do
  return ⟨← region.readWithin 16 8, ← region.readWithin 24 4⟩

/-- Replaces the resume key. -/
def setResume (region : Bytes) (key : Key) : Checked Bytes := do
  let region ← region.writeWithin 16 8 key.endsAt
  region.writeWithin 24 4 key.rank

/-- The flags, of which only the lowest bit has a meaning. -/
def flags (region : Bytes) : Checked Nat := region.readWithin 28 1

/-- Returns whether the scan was stopped. -/
def isTerminated (region : Bytes) : Checked Bool := do
  Checked.require (decide (Layout.historyAt ≤ region.size)) .brokenCondition
  return (← flags region) % 2 == 1

/-- Marks the scan as stopped. -/
def setTerminated (region : Bytes) : Checked Bytes := do
  let n ← flags region
  region.writeWithin 28 1 (n / 2 * 2 + 1)

/-! ## History -/

/-- How many bytes the history has. -/
def historyLength (region : Bytes) : Checked Nat := region.readWithin 30 2

/-- The last bytes that were scanned. -/
def history (region : Bytes) : Checked Bytes := do
  region.sliceWithin Layout.historyAt (← historyLength region)

/-- The bytes that are kept of a history and the bytes that follow it. -/
def keptHistory (size : Nat) (older newer : Bytes) : Bytes :=
  let keep := min size (older.size + newer.size)
  let fromNewer := min keep newer.size
  older.slice (older.size - (keep - fromNewer)) (keep - fromNewer)
    ++ newer.slice (newer.size - fromNewer) fromNewer

/-- Replaces the history with the last bytes of an older history and the bytes
that follow it. -/
def setHistory (layout : Layout) (region older newer : Bytes) : Checked Bytes := do
  let kept := keptHistory layout.historySize older newer
  let region ← region.overwriteWithin Layout.historyAt kept
  region.writeWithin 30 2 kept.size

/-! ## Patterns -/

/-- The entry of a pattern. -/
def pattern (layout : Layout) (region : Bytes) (i : Nat) : Checked PatternEntry := do
  return .ofWord (← region.wordWithin (Layout.patternAt layout.historySize i))

/-- Replaces the entry of a pattern. -/
def setPattern (layout : Layout) (region : Bytes) (i : Nat) (entry : PatternEntry) :
    Checked Bytes := do
  let n ← entry.toNumber
  region.writeWithin (Layout.patternAt layout.historySize i) 8 n

end StreamState

end StreamMatch
