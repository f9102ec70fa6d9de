-- Reporting matches during a scan. A match of a literal is reported as soon as
-- it is found, and a match of a repeat is pending until every match that goes
-- before it was reported.
import StreamMatch.Scan.Event
import StreamMatch.Scan.Input
import StreamMatch.Program
import StreamMatch.Scratch
import StreamMatch.State.Fields

namespace StreamMatch

/-- A scan of a chunk. -/
structure Scan where
  program : Program
  input : Input
  /-- The places of the states of the repeats, in the order of their
  identifiers. -/
  trackers : List Tracker
  /-- No data follows the chunk. -/
  isFinal : Bool
  policy : Policy

/-- What a scan knows of the pending matches without reading the states of the
repeats. -/
structure Pending where
  /-- How many repeats have a pending match. -/
  count : Nat
  /-- No pending match goes before this key. -/
  earliest : Key
deriving DecidableEq, Repr

namespace Pending

/-- No pending match. -/
def none : Pending := ⟨0, .last⟩

/-- One more pending match, with the given key. -/
def add (p : Pending) (key : Key) : Pending :=
  ⟨p.count + 1, if key < p.earliest then key else p.earliest⟩

end Pending

/-- What a scan is doing. -/
inductive Phase where
  /-- It goes through the chunk. -/
  | scanning
  /-- It waits for the answer to an event. -/
  | suspended
  /-- The answer to an event was to stop. -/
  | terminated
deriving DecidableEq, Repr

/-- What a scan does after an answer. -/
def Phase.after : Action → Phase
  | .proceed => scanning
  | .stop => terminated

/-- How far a scan got. -/
structure Progress where
  /-- The state of the stream. -/
  region : Bytes
  window : Bytes
  ties : List Candidate
  pending : Pending
  phase : Phase
  /-- The events reported so far. -/
  events : Array Event

namespace Progress

/-- Changes the state of the stream. -/
@[inline] def update (pr : Progress) (f : Bytes → Checked Bytes) : Checked Progress := do
  let ⟨region, window, ties, pending, phase, events⟩ := pr
  return ⟨← f region, window, ties, pending, phase, events⟩

/-- Changes the state of the stream and gives a result. -/
@[inline] def updateWith {α : Type} (pr : Progress) (f : Bytes → Checked (Bytes × α)) :
    Checked (Progress × α) := do
  let ⟨region, window, ties, pending, phase, events⟩ := pr
  let (region, a) ← f region
  return (⟨region, window, ties, pending, phase, events⟩, a)

/-- Adds an event, whose answer the scan waits for. -/
@[inline] def tell (pr : Progress) (e : Event) : Progress :=
  let ⟨region, window, ties, pending, _, events⟩ := pr
  ⟨region, window, ties, pending, .suspended, events.push e⟩

/-- Goes on as the answer to an event says. -/
@[inline] def resume (pr : Progress) (answer : Action) : Progress :=
  let ⟨region, window, ties, pending, _, events⟩ := pr
  ⟨region, window, ties, pending, .after answer, events⟩

/-- Adds an event and asks the policy for its answer. -/
@[inline] def deliver (pr : Progress) (policy : Policy) (e : Event) : Progress × Action :=
  let pr := pr.tell e
  let answer := policy pr.events
  (pr.resume answer, answer)

end Progress

namespace Scan

variable (s : Scan)

/-- The entry of a pattern. -/
def entry (pr : Progress) (pattern : PatternId) : Checked PatternEntry :=
  StreamState.pattern s.program.layout pr.region pattern.toNat

/-- Returns whether a match of a pattern that ends at an offset would not be
reported. -/
def isRedundant (e : PatternEntry) (last : Nat) : Bool := e.exhausted || e.lastEnd == some last

/-- Reports a match, unless its pattern is exhausted or was already reported
with the same end. Nothing is reported while the answer to an event is missing, or after
one that was to stop. -/
def report (pr : Progress) (pattern : PatternId) (start last : Nat) :
    Checked (Progress × Action) := do
  Checked.require (decide (pr.phase = .scanning)) .brokenCondition
  let flags := (← Checked.some? s.program.patterns[pattern.toNat]? .outOfBounds).flags
  if isRedundant (← s.entry pr pattern) last then return (pr, .proceed)
  let entry : PatternEntry := ⟨some last, flags.singleMatch⟩
  let pr ← pr.update (StreamState.setPattern s.program.layout · pattern.toNat entry)
  let startsAt := if flags.noStart then none else some start
  return pr.deliver s.policy ⟨pattern, startsAt, last⟩

/-! ## Pending matches -/

/-- The repeat whose pending match goes first, of `best`, which comes before the
given repeats, and those repeats. -/
def firstPending (region : Bytes) (best : Option (Key × Tracker)) :
    List Tracker → Checked (Option (Key × Tracker))
  | [] => return best
  | t :: rest => do
    match ← t.pending? region with
    | none => firstPending region best rest
    | some run =>
      let isFirst := match best with
        | some (key, _) => decide (run.key < key)
        | none => true
      firstPending region (if isFirst then some (run.key, t) else best) rest

/-- Reports the pending matches before `limit` in the order of their keys. The
last argument is how many repeats have a pending match. -/
def flushSome (pr : Progress) (limit : Key) : (count : Nat) → Checked (Progress × Action)
  | 0 => return ({ pr with pending := .none }, .proceed)
  | count + 1 => do
    match ← firstPending pr.region none s.trackers with
    | none => return ({ pr with pending := ⟨count + 1, .last⟩ }, .proceed)
    | some (key, t) =>
      if limit ≤ key then return ({ pr with pending := ⟨count + 1, key⟩ }, .proceed)
      let (pr, run) ← pr.updateWith t.take
      match run with
      | none => flushSome pr limit count
      | some run =>
        match ← s.report pr t.rep.pattern run.startsAt run.endsAt with
        | (pr, .stop) => return ({ pr with pending := ⟨count, key⟩ }, .stop)
        | (pr, .proceed) => flushSome pr limit count

/-- Reports the pending matches before `limit` in the order of their keys. -/
def flush (pr : Progress) (limit : Key) : Checked (Progress × Action) :=
  if limit ≤ pr.pending.earliest then return (pr, .proceed)
  else s.flushSome pr limit pr.pending.count

end Scan

end StreamMatch
