-- The state of a repeat, kept as bytes inside a larger region:
--
--   0   8  end of the last run plus one, zero if there was none
--   8   8  end of the pending match plus one, zero if there is none
--   16  8  length of the pending match
--   24  4  rank of the pending match
--   28  4  padding
--   32     payload
--
-- The payload of a bitmap or a counter is a number of 8 bytes. The payload of
-- a ring is how many offsets it holds (2 bytes), the slot of the next offset
-- (2 bytes), padding (4 bytes) and the slots (8 bytes each).
import StreamMatch.Bytes
import StreamMatch.ByteClass.Leading
import StreamMatch.Repeat

namespace StreamMatch

/-- The place of the state of a repeat in a region of bytes. -/
structure Tracker where
  rep : Repeat
  /-- The position of the first byte of the state. -/
  base : Nat

/-- How many of the `width` low bits of a number are set before the first one
that is not. -/
def lowOneBits : (width n : Nat) → Nat
  | 0, _ => 0
  | width + 1, n => if n % 2 = 1 then lowOneBits width (n / 2) + 1 else 0

/-- One less than a number, nothing for zero. -/
def predecessor? : Nat → Option Nat
  | 0 => none
  | n + 1 => some n

namespace Tracker

variable (t : Tracker)

/-! ## Reading the state -/

/-- The offset that follows the last byte of the last run, open or closed. -/
def runEnd? (s : Bytes) : Option Nat := predecessor? (s.readWord t.base)

/-- The number of 8 bytes at the start of the payload. -/
def payload (s : Bytes) : Nat := s.readWord (t.base + 32)

/-- How many offsets the ring holds. -/
def ringCount (s : Bytes) : Nat := s.readNumber (t.base + 32) 2

/-- The slot where the next offset is put. -/
def ringHead (s : Bytes) : Nat := s.readNumber (t.base + 34) 2

/-- The offset in a slot of the ring. -/
def slot (s : Bytes) (i : Nat) : Nat := s.readWord (t.base + 40 + 8 * i)

/-- Fails unless the slot is inside the state. -/
def requireSlot (i : Nat) : Checked Unit :=
  Checked.require (decide (40 + 8 * i + 8 ≤ t.rep.stateSize)) .outOfBounds

/-- The length of the current run. A run above the upper bound counts as one
more than the bound. -/
def runLength (s : Bytes) : Nat :=
  match t.rep.tracking with
  | .bitmap => lowOneBits 64 (t.payload s)
  | .counter => t.payload s
  | .ring => t.ringCount s

/-- Returns whether there is a run that can go on. -/
def isOpen (s : Bytes) : Bool := decide (0 < t.runLength s)

/-- The oldest and the newest offset of a ring that is not empty. -/
def ringSpan (s : Bytes) : Checked (Nat × Nat) := do
  let window := t.rep.window
  let head := t.ringHead s
  let newest := (head + window - 1) % window
  t.requireSlot newest
  let oldest := (← Word.sub (head + window) (t.ringCount s)) % window
  t.requireSlot oldest
  return (t.slot s oldest, t.slot s newest)

/-- Returns whether the length of the current run is within the bounds. The
offsets of a ring must also be one step apart from each other. -/
def isSatisfied (s : Bytes) : Checked Bool := do
  let length := t.runLength s
  if !t.rep.accepts length then return false
  if t.rep.tracking = .ring ∧ 0 < length then
    let (oldest, newest) ← t.ringSpan s
    return (← Word.sub newest oldest) == length - 1
  else return true

/-- The end of the pending match, if there is one. -/
def pendingEnd? (s : Bytes) : Option Nat := predecessor? (s.readWord (t.base + 8))

/-- The match that waits to be reported, if there is one. -/
def pending? (s : Bytes) : Checked (Option Run) := do
  match t.pendingEnd? s with
  | none => return none
  | some last =>
    let start ← Word.sub last (s.readWord (t.base + 16))
    return some ⟨start, last, s.readNumber (t.base + 24) 4⟩

/-! ## Changing the state -/

/-- Puts the repeat in its first state, without a run and a pending match. -/
def reset (s : Bytes) : Bytes := s.clear t.base t.rep.stateSize

/-- Puts an offset in the next slot of the ring. -/
def push (s : Bytes) (offset : Nat) : Checked Bytes := do
  let window := t.rep.window
  let head := t.ringHead s
  let count := t.ringCount s
  t.requireSlot head
  let s := s.writeNumber (t.base + 40 + 8 * head) 8 offset
  let s := Bytes.writeNumber s (t.base + 32) 2 (min (count + 1) window)
  return Bytes.writeNumber s (t.base + 34) 2 ((head + 1) % window)

/-- Puts `n` consecutive offsets in the ring, from `offset` on. -/
def pushRange (s : Bytes) (offset : Nat) : (n : Nat) → Checked Bytes
  | 0 => return s
  | n + 1 => do pushRange (← t.push s offset) (offset + 1) n

/-- The bits of a bitmap after `n` more steps in the class. -/
def shiftIn (window bits n : Nat) : Nat :=
  let mask := if 64 ≤ window then Word.largest else (1 <<< window) - 1
  let shifted := if 64 ≤ n then Word.largest else (bits <<< n % Word.bound) ||| ((1 <<< n) - 1)
  shifted &&& mask

/-- Remembers `n` more steps in the class, the last of them ending at
`last`. -/
def countSteps (s : Bytes) (n last : Nat) : Checked Bytes := do
  let window := t.rep.window
  match t.rep.tracking with
  | .bitmap => return s.writeNumber (t.base + 32) 8 (shiftIn window (t.payload s) n)
  | .counter =>
    return s.writeNumber (t.base + 32) 8 (min (Word.addSat (t.payload s) n) window)
  | .ring =>
    -- Only the last offsets are kept, the others would be replaced anyway.
    let kept := min n window
    t.pushRange s ((← Word.sub last kept) + 1) kept

/-- Extends the current run, or starts one, with `n` repetitions, the last of
them ending at `last`. An open run must end where they begin. -/
def extend (s : Bytes) (n last : Nat) : Checked Bytes := do
  if n = 0 then return s
  if t.isOpen s then
    match t.runEnd? s with
    | none => throw .brokenCondition
    | some runEnd => Checked.require ((← Word.add runEnd n) == last) .brokenCondition
  let s ← t.countSteps s n last
  return s.writeNumber t.base 8 (← Word.add last 1)

/-- Closes the current run. If its length is within the bounds it becomes the
pending match, with the given rank, and is also returned. -/
def close (s : Bytes) (rank : Nat) : Checked (Bytes × Option Run) := do
  if !t.isOpen s then return (s, none)
  match t.runEnd? s with
  | none => return (s, none)
  | some last =>
    let payloadSize := t.rep.stateSize - 32
    if ← t.isSatisfied s then
      Checked.require (← t.pending? s).isNone .brokenCondition
      let length := t.runLength s
      let s := s.writeNumber (t.base + 8) 8 (last + 1)
      let s := Bytes.writeNumber s (t.base + 16) 8 length
      let s := Bytes.writeNumber s (t.base + 24) 4 rank
      let start ← Word.sub last length
      return (Bytes.clear s (t.base + 32) payloadSize, some ⟨start, last, rank⟩)
    else
      return (s.clear (t.base + 32) payloadSize, none)

/-- Returns the pending match and forgets it. -/
def take (s : Bytes) : Checked (Bytes × Option Run) := do
  let run ← t.pending? s
  return (s.clear (t.base + 8) 24, run)

/-! ## States that can be reached -/

/-- Returns whether the repeat can be in this state after `offset` bytes. An
open run reaches `offset`, and no other offset in the state is above it. -/
def isConsistent (s : Bytes) (offset : Nat) : Bool :=
  let length := t.runLength s
  let window := t.rep.window
  let runEndFits := match t.runEnd? s with
    | some last => decide (last ≤ offset)
    | none => true
  let pendingFits := match t.pendingEnd? s with
    | some last => decide (last ≤ offset ∧ s.readWord (t.base + 16) ≤ last)
    | none => true
  let payloadFits := match t.rep.tracking with
    | .bitmap => decide (64 ≤ window ∨ t.payload s >>> window = 0)
    | .counter => decide (length ≤ window)
    | .ring =>
      let head := t.ringHead s
      if window ≤ head ∨ window < length then false
      else if length = 0 then true
      else
        -- The offsets are one step apart and the newest one ends the run.
        let newest := t.slot s ((head + window - 1) % window)
        let oldest := t.slot s ((head + window - length) % window)
        decide (oldest ≤ newest ∧ newest - oldest = length - 1 ∧ t.runEnd? s = some newest)
  runEndFits
    && decide (0 < length → t.runEnd? s = some offset)
    && decide (length ≤ (t.runEnd? s).getD 0)
    && pendingFits && payloadFits

/-- `isConsistent`, where the slots of the ring that are compared must be inside the
state. -/
def isConsistentWithin (s : Bytes) (offset : Nat) : Checked Bool := do
  let count := t.ringCount s
  if t.rep.tracking = .ring ∧ t.ringHead s < t.rep.window ∧ count ≤ t.rep.window ∧ 0 < count then
    let _ ← t.ringSpan s
  return t.isConsistent s offset

end Tracker

end StreamMatch
