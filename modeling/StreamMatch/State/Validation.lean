-- Which regions of bytes are states of the streams of a program.
import StreamMatch.Error
import StreamMatch.State.Fields

namespace StreamMatch.StreamState

/-- Returns whether no match of a pattern was reported after `offset`. -/
def patternFits (layout : Layout) (region : Bytes) (offset i : Nat) : Bool :=
  let entry := PatternEntry.ofWord (region.word (Layout.patternAt layout.historySize i))
  match entry.lastEnd with
  | some last => decide (last ≤ offset)
  | none => true

/-- Returns whether the state of a repeat is one that it can have after `offset`
bytes. -/
def repeatFits (layout : Layout) (region : Bytes) (offset : Nat) (r : Repeat) : Bool :=
  match layout.repeats[r.id.toNat]? with
  | some extent => (Tracker.mk r extent.start).isConsistent region offset
  | none => false

/-- Returns whether the fields agree with each other: the history has all the
bytes it can have, and nothing in the state is after the stream offset. -/
def isConsistent (layout : Layout) (repeats : Array Repeat) (region : Bytes) : Bool :=
  let offset := region.readNumber 8 8
  region.readNumber 30 2 == min layout.historySize offset
    && decide (region.readNumber 16 8 ≤ Word.addSat offset 1)
    && (List.range layout.patternCount).all (patternFits layout region offset)
    && repeats.size == layout.repeats.size
    && repeats.all (repeatFits layout region offset)

/-- Checks that a region is the state of a stream. The state of a terminated
stream is never used again, so its fields are not checked. -/
def validate (layout : Layout) (repeats : Array Repeat) (checksum : UInt32) (region : Bytes) :
    Except Mismatch Unit :=
  if region.size ≠ layout.size then .error (.stateSize layout.size region.size)
  else if (region.slice 0 4).toList ≠ magic ∨ region.readNumber 4 4 ≠ checksum.toNat
      ∨ region.readNumber 28 1 / 2 ≠ 0 then .error .foreignState
  else if region.readNumber 28 1 % 2 = 1 then .ok ()
  else if isConsistent layout repeats region then .ok ()
  else .error .foreignState

/-! ## Checks inside of the state

A scan checks a state before it uses it, and reads it in the same way as then: a field must
be inside of the state, and a repeat must have a place in it. -/

/-- `patternFits`, with the entry read inside of the state. -/
def patternFitsWithin (layout : Layout) (region : Bytes) (offset i : Nat) : Checked Bool := do
  let entry ← pattern layout region i
  match entry.lastEnd with
  | some last => return decide (last ≤ offset)
  | none => return true

/-- `repeatFits`, for a repeat that must have a place in the layout. -/
def repeatFitsWithin (layout : Layout) (region : Bytes) (offset : Nat) (r : Repeat) :
    Checked Bool := do
  let t ← layout.tracker r region
  t.isConsistentWithin region offset

/-- `isConsistent`, with all fields read inside of the state. -/
def isConsistentWithin (layout : Layout) (repeats : Array Repeat) (region : Bytes) :
    Checked Bool := do
  let offset ← offset region
  if (← historyLength region) ≠ min layout.historySize offset then return false
  if Word.addSat offset 1 < (← resume region).endsAt then return false
  let patternsFit ← (List.range layout.patternCount).allM (patternFitsWithin layout region offset)
  if !patternsFit then return false
  if repeats.size ≠ layout.repeats.size then return false
  repeats.toList.allM (repeatFitsWithin layout region offset)

/-- `validate`, with all fields read inside of the state. -/
def validateWithin (layout : Layout) (repeats : Array Repeat) (checksum : UInt32)
    (region : Bytes) : Checked (Except Mismatch Unit) := do
  if region.size ≠ layout.size then return .error (.stateSize layout.size region.size)
  let found ← region.sliceWithin 0 4
  if found.toList ≠ magic ∨ (← region.readWithin 4 4) ≠ checksum.toNat
      ∨ (← flags region) / 2 ≠ 0 then return .error .foreignState
  if ← isTerminated region then return .ok ()
  return if ← isConsistentWithin layout repeats region then .ok () else .error .foreignState

end StreamMatch.StreamState
