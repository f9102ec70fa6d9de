-- Bounded repeats. A repeat is a byte class and the bounds of a number of
-- repetitions. It matches at the end of each maximal run of bytes of the class
-- whose length is within the bounds.
import StreamMatch.Bound
import StreamMatch.ByteClass
import StreamMatch.Identifier
import StreamMatch.Key
import StreamMatch.Settings

namespace StreamMatch

/-- How the current run of a repeat is remembered. -/
inductive Tracking where
  /-- A bitmap with the outcome of the last steps. -/
  | bitmap
  /-- A counter that stops at one more than the upper bound. -/
  | counter
  /-- A ring with the offsets of the last bytes in the class. -/
  | ring
deriving DecidableEq, Repr

namespace Tracking

/-- The tracking of a repeat, from its upper bound and the limits in the
settings. -/
def select (most : Bound) (settings : Settings) : Tracking :=
  match most.value? with
  | some n =>
    if n ≤ settings.bitmapLimit then bitmap
    else if n ≤ settings.ringLimit then ring
    else counter
  | none => counter

/-- The name of a tracking. -/
def name : Tracking → String
  | bitmap => "Bitmap"
  | counter => "Counter"
  | ring => "Ring"

/-- The number of a tracking in the checksum of a program. -/
def code : Tracking → UInt8
  | bitmap => 0
  | counter => 1
  | ring => 2

end Tracking

/-- A bounded repeat. -/
structure Repeat where
  id : RepeatId
  /-- The pattern that is reported when the repeat matches. -/
  pattern : PatternId
  /-- The bytes that are repeated. -/
  allowed : ByteClass
  /-- The least number of repetitions. -/
  least : Nat
  /-- The most repetitions. -/
  most : Bound
  tracking : Tracking
  /-- The rank of the matches that end with each byte of the class, in
  increasing order of bytes. -/
  ranks : Array (UInt8 × Nat)
deriving DecidableEq, Repr

namespace Repeat

/-- Returns whether a run of `n` repetitions is within the bounds. -/
def accepts (r : Repeat) (n : Nat) : Bool := decide (r.least ≤ n) && r.most.admits n

/-- The rank of a byte that has no entry in the table of ranks. -/
def noRank : Nat := 0xFFFFFFFF

/-- Halves the `size` entries of a sorted table from `base` on until one is
left, the last one that is not above the byte if there is one. -/
def narrow (ranks : Array (UInt8 × Nat)) (b : UInt8) (base size : Nat) : Nat :=
  if size ≤ 1 then base
  else
    let middle := base + size / 2
    let above := match ranks[middle]? with
      | some entry => decide (b < entry.1)
      | none => true
    narrow ranks b (if above then base else middle) (size - size / 2)
termination_by size
decreasing_by omega

/-- The rank of the matches that end with the byte `b`, found by binary
search. -/
def rankOf (r : Repeat) (b : UInt8) : Nat :=
  match r.ranks[narrow r.ranks b 0 r.ranks.size]? with
  | some entry => if entry.1 = b then entry.2 else noRank
  | none => noRank

/-- How many steps are remembered, one more than the upper bound, so that a run
of exactly that length can be told from a longer one. -/
def window (r : Repeat) : Nat :=
  match r.most.value? with
  | some n => n + 1
  | none => Word.largest

/-- How many bytes the state of the repeat takes. -/
def stateSize (r : Repeat) : Nat :=
  match r.tracking with
  | .bitmap => 32 + 8
  | .counter => 32 + 8
  | .ring => 32 + 8 + 8 * r.window

end Repeat

/-- A run whose length is within the bounds of its repeat. -/
structure Run where
  /-- The offset of the first byte of the run. -/
  startsAt : Nat
  /-- The offset that follows the last byte of the run. -/
  endsAt : Nat
  rank : Nat
deriving DecidableEq, Repr

/-- The place of a run among the matches. -/
def Run.key (m : Run) : Key := ⟨m.endsAt, m.rank⟩

end StreamMatch
