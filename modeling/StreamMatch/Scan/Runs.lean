-- The runs of bounded repeats during a scan. A run is extended as far as the
-- bytes of the chunk allow. If it does not reach the end of the chunk, or if
-- no chunk follows, the run is closed.
import StreamMatch.Scan.Progress

namespace StreamMatch.Scan

variable (s : Scan)

/-- Closes the run of a repeat that ends at offset `last`. -/
def closeRun (pr : Progress) (t : Tracker) (last : Nat) : Checked Progress := do
  let b ← s.input.byteAt (← Word.sub last 1)
  let (pr, run) ← pr.updateWith (t.close · (t.rep.rankOf b))
  match run with
  | some run => return { pr with pending := pr.pending.add run.key }
  | none => return pr

/-- Extends the run of a repeat with the `n` bytes before offset `last`. -/
def extendRun (pr : Progress) (t : Tracker) (n last : Nat) : Checked Progress :=
  pr.update (t.extend · n last)

/-- Closes the run of a repeat that ends at offset `last`, unless it reaches the
end of the chunk and another chunk follows. -/
def settleRun (pr : Progress) (t : Tracker) (last : Nat) (reachesEnd : Bool) :
    Checked Progress :=
  if reachesEnd && !s.isFinal then return pr else s.closeRun pr t last

/-- Goes on with the runs that were open at the end of the chunk before. -/
def extendOpenRuns (pr : Progress) : List Tracker → Checked Progress
  | [] => return pr
  | t :: rest => do
    if t.isOpen pr.region then
      let n ← t.rep.allowed.leading s.input.data
      let last ← Word.add s.input.chunkStart n
      let pr ← extendRun pr t n last
      extendOpenRuns (← s.settleRun pr t last (decide (s.input.data.size ≤ n))) rest
    else extendOpenRuns pr rest

/-- Starts a run at the byte before offset `last`, unless the byte belongs to a
run that was already found. -/
def startRun (pr : Progress) (id : RepeatId) (last : Nat) : Checked Progress := do
  let r ← Checked.some? s.program.repeats[id.toNat]? .outOfBounds
  let t ← s.program.layout.tracker r pr.region
  let isKnown := match t.runEnd? pr.region with
    | some runEnd => decide (last ≤ runEnd)
    | none => false
  if isKnown then return pr
  let first ← Word.sub last 1
  let n ← s.input.runLength first r.allowed
  let last ← Word.add first n
  let pr ← extendRun pr t n last
  s.settleRun pr t last (decide ((← s.input.chunkEnd) ≤ last))

/-- Returns whether one of the repeats has an open run that, if it ended at
offset `last` with the byte `b`, would match before `key`. -/
def hasOpenRunBefore (region : Bytes) (key : Key) (last : Nat) (b : UInt8)
    (trackers : List Tracker) : Bool :=
  trackers.any fun t => t.isOpen region && decide ((⟨last, t.rep.rankOf b⟩ : Key) < key)

/-- Returns whether a candidate has to wait for the next chunk, because an open
run could still match before it. That can only happen to the candidates that
end with the chunk. -/
def waitsForOpenRun (pr : Progress) (key : Key) : Checked Bool := do
  let chunkEnd ← s.input.chunkEnd
  if s.isFinal ∨ key.endsAt ≠ chunkEnd ∨ chunkEnd = 0 then return false
  return hasOpenRunBefore pr.region key chunkEnd (← s.input.byteAt (chunkEnd - 1)) s.trackers

end StreamMatch.Scan
