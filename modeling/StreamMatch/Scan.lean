-- Scanning a chunk of data. The candidates of the chunk are processed in the
-- order of their keys, and the pending matches of repeats that go before each
-- of them are reported first. A candidate that can not be decided yet is
-- deferred to the next chunk together with all that comes after it.
import StreamMatch.Automaton.Verdict
import StreamMatch.Scan.Runs
import StreamMatch.State.Validation

namespace StreamMatch

namespace Scan

variable (s : Scan)

/-! ## Candidates -/

/-- How processing candidates goes on. -/
inductive Step where
  | proceed
  /-- The candidate with this key waits for the next chunk. -/
  | defer (key : Key)
  | stop
deriving DecidableEq, Repr

/-- The step after an event with the given answer. -/
def Step.ofAction : Action → Step
  | .proceed => proceed
  | .stop => stop

/-- The offsets of the bytes that are shown to an automaton, for a literal that
starts at the given offset: what the automaton can reach, as far as it is in the
input. -/
def windowRange (reach : Reach) (literalStart : Nat) : Checked (Nat × Nat) := do
  let start := Signed.ofWord literalStart
  let lo := max (← Signed.add start reach.least) (Signed.ofWord s.input.floor)
  let hi := min (max (← Signed.add start reach.most) lo) (Signed.ofWord (← s.input.chunkEnd))
  return (Signed.toWord lo, Signed.toWord hi)

/-- Copies the bytes that are shown to an automaton to the window buffer, and
runs the automaton on them. -/
def confirm (pr : Progress) (id : AutomatonId) (literalStart : Nat) :
    Checked (Progress × Verdict) := do
  let automaton ← Checked.some? s.program.automata[id.toNat]? .outOfBounds
  let (lo, hi) ← s.windowRange automaton.reach literalStart
  let bytes ← s.input.bytesAt lo (← Word.sub hi lo)
  let ⟨region, buffer, ties, pending, phase, events⟩ := pr
  let buffer ← buffer.overwriteWithin 0 bytes
  let window : Window :=
    { bytes := buffer.slice 0 bytes.size
      base := lo
      atEnd := s.isFinal && hi == (← s.input.chunkEnd) }
  let verdict ← window.followFrom automaton.directives literalStart
  return (⟨region, buffer, ties, pending, phase, events⟩, verdict)

/-- Processes an occurrence of a literal of a pattern. -/
def processLiteral (pr : Progress) (l : Literal) (pattern : PatternId) (c : Candidate) :
    Checked (Progress × Step) := do
  let start ← Word.sub c.endsAt l.bytes.size
  if l.anchored ∧ start ≠ 0 then return (pr, .proceed)
  if isRedundant (← s.entry pr pattern) c.endsAt then return (pr, .proceed)
  match l.automaton with
  | none =>
    let (pr, answer) ← s.report pr pattern start c.endsAt
    return (pr, .ofAction answer)
  | some id =>
    match ← s.confirm pr id start with
    | (pr, .rejected) => return (pr, .proceed)
    | (pr, .undecided) => return (pr, .defer c.key)
    | (pr, .confirmed start) =>
      let (pr, answer) ← s.report pr pattern start c.endsAt
      return (pr, .ofAction answer)

/-- Processes a candidate. -/
def process (pr : Progress) (c : Candidate) : Checked (Progress × Step) := do
  let l ← Checked.some? s.program.literals[c.literal.toNat]? .outOfBounds
  match l.target with
  | .pattern id => s.processLiteral pr l id c
  | .repetition id => return (← s.startRun pr id c.endsAt, .proceed)

/-- Reports what is pending before a candidate, and then processes it unless it
has to wait. -/
def visit (pr : Progress) (c : Candidate) : Checked (Progress × Step) := do
  match ← s.flush pr c.key with
  | (pr, .stop) => return (pr, .stop)
  | (pr, .proceed) =>
    if ← s.waitsForOpenRun pr c.key then return (pr, .defer c.key)
    s.process pr c

/-- Visits candidates in order, up to the first one that does not proceed. -/
def visitEach (pr : Progress) : List Candidate → Checked (Progress × Step)
  | [] => return (pr, .proceed)
  | c :: rest => do
    match ← s.visit pr c with
    | (pr, .proceed) => visitEach pr rest
    | stopped => return stopped

/-- Visits groups of candidates with the same end, leaving out those that are
before the key `resume`. A group that can not be found matters only when it is
its turn. -/
def visitGroups (pr : Progress) (resume : Key) :
    List (Checked (List Candidate)) → Checked (Progress × Step)
  | [] => return ({ pr with ties := [] }, .proceed)
  | found :: rest => do
    let group ← found
    let pr := { pr with ties := group }
    match ← s.visitEach pr (group.filter fun c => decide (resume ≤ c.key)) with
    | (pr, .proceed) => visitGroups pr resume rest
    | stopped => return stopped

/-! ## Chunks -/

/-- The first key that is left for the next chunk: the one of the deferred
candidate, or else the first one that ends after the chunk. There must be an
offset after the chunk in any case. -/
def horizon (deferred : Option Key) : Checked Key := do
  let next ← Word.add (← s.input.chunkEnd) 1
  return deferred.getD ⟨next, 0⟩

/-- Reports the matches that are known at the end of the chunk. If no chunk
follows these are all of them, otherwise they are those before the horizon. -/
def finish (pr : Progress) (deferred : Option Key) : Checked (Progress × Action) := do
  if s.isFinal then
    Checked.require deferred.isNone .brokenCondition
    s.flush pr .last
  else
    let limit ← s.horizon deferred
    let pr ← pr.update (StreamState.setResume · limit)
    s.flush pr limit

/-- Processes the chunk, with its candidates in groups. -/
def search (pr : Progress) (resume : Key) (groups : List (Checked (List Candidate))) :
    Checked (Progress × Action) := do
  let pr ← s.extendOpenRuns pr s.trackers
  match ← s.visitGroups pr resume groups with
  | (pr, .stop) => return (pr, .stop)
  | (pr, .defer key) => s.finish pr (some key)
  | (pr, .proceed) => s.finish pr none

/-- How many repeats have a pending match. -/
def countPending (region : Bytes) : List Tracker → Checked Nat
  | [] => return 0
  | t :: rest => do
    let n := if (← t.pending? region).isSome then 1 else 0
    return n + (← countPending region rest)

/-- The state of the stream after the chunk. -/
def closeChunk (region : Bytes) : Action → Checked (Status × Bytes)
  | .stop => do return (.terminated, ← StreamState.setTerminated region)
  | .proceed => do
    let region ← StreamState.setHistory s.program.layout region s.input.history s.input.data
    return (.completed, ← StreamState.setOffset region (← s.input.chunkEnd))

end Scan

/-- A scan of a chunk before its search. -/
structure Prepared where
  scan : Scan
  progress : Progress
  resume : Key
  /-- The candidates with the same end, for each end from that of `resume` on. -/
  groups : List (Checked (List Candidate))
  /-- The buffer of the seam. -/
  seam : Bytes

/-- Prepares the scan of a chunk of a stream whose state is `region`: searches for
the candidates, and counts the matches that are pending. -/
def Program.prepare (p : Program) (region : Bytes) (buffers : Buffers) (data : Bytes)
    (isFinal : Bool) (policy : Policy) : Checked Prepared := do
  let ⟨seamBuffer, window, ties, tieCapacity⟩ := buffers
  let history ← StreamState.history region
  let start := data.slice 0 p.seamTail
  -- The history is read back from the seam.
  let seamBuffer ← seamBuffer.overwriteWithin 0 (history ++ start)
  let seam := seamBuffer.slice 0 (history.size + start.size)
  let history := seam.slice 0 history.size
  let resume ← StreamState.resume region
  let chunkStart ← StreamState.offset region
  let trackers ← p.repeats.toList.mapM fun r => p.layout.tracker r region
  let pending : Pending := ⟨← Scan.countPending region trackers, .first⟩
  let input ← Input.make history data chunkStart
  let searched : Searched := ⟨seam, history.size, data, chunkStart⟩
  Checked.require (decide (p.table.size ≤ tieCapacity)) .brokenCondition
  let groups ← searched.groups p.table resume.endsAt
  let progress : Progress := ⟨region, window, ties, pending, .scanning, #[]⟩
  return ⟨⟨p, input, trackers, isFinal, policy⟩, progress, resume, groups, seamBuffer⟩

/-- What a scan leaves: the state of the stream and the buffers. -/
structure Scanned where
  report : Report
  region : Bytes
  buffers : Buffers

/-- Scans a chunk of a stream whose state is `region`. A state that does not
belong to the program is refused, and a stream that was stopped is not scanned
anymore. -/
def Program.scanChunk (p : Program) (region : Bytes) (buffers : Buffers) (data : Bytes)
    (isFinal : Bool) (policy : Policy) : Checked Scanned := do
  match ← StreamState.validateWithin p.layout p.repeats p.checksum region with
  | .error e => return ⟨.error (.mismatch e), region, buffers⟩
  | .ok () =>
    if ← StreamState.isTerminated region then
      return ⟨.ok (.terminated, #[]), region, buffers⟩
    let tieCapacity := buffers.tieCapacity
    let ⟨s, pr, resume, groups, seam⟩ ← p.prepare region buffers data isFinal policy
    let (⟨region, window, ties, _, _, events⟩, action) ← s.search pr resume groups
    let (status, region) ← s.closeChunk region action
    return ⟨.ok (status, events), region, ⟨seam, window, ties, tieCapacity⟩⟩

end StreamMatch
