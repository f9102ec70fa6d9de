-- Scanning data that arrives in chunks, and data that is a single block. The
-- state of a stream is a block of bytes, which can be saved and restored.
import StreamMatch.Scan

namespace StreamMatch

/-- A stream of a program. -/
structure Stream where
  program : Program
  state : Block

namespace Stream

/-- Opens a stream, whose state comes from the given memory. -/
def start (p : Program) (m : Memory) : Except Error Stream × Memory :=
  match p.validate with
  | .error e => (.error e, m)
  | .ok () =>
    match m.request p.streamSize with
    | (.ok b, m) => (.ok ⟨p, ⟨b.serial, StreamState.initial b.size p.checksum⟩⟩, m)
    | (.error e, m) => (.error e, m)

/-- Checks that the stream can be scanned with a scratch space. -/
def check (p : Program) (scratch : Scratch) : Except Error Unit := do
  p.validate
  scratch.validate p

/-- Scans a chunk, the last one if `isFinal`. -/
def scanWith (s : Stream) (scratch : Scratch) (data : Bytes) (isFinal : Bool) (policy : Policy) :
    Checked (Report × Stream × Scratch) := do
  match check s.program scratch with
  | .error e => return (.error e, s, scratch)
  | .ok () =>
    let ⟨p, ⟨serial, region⟩⟩ := s
    let ⟨report, region, buffers⟩ ← p.scanChunk region scratch.buffers data isFinal policy
    return (report, ⟨p, ⟨serial, region⟩⟩, scratch.withBuffers buffers)

/-- Scans the next chunk. -/
def scan (s : Stream) (scratch : Scratch) (data : Bytes) (policy : Policy) :
    Checked (Report × Stream × Scratch) := s.scanWith scratch data false policy

/-- Gives back the memory of the stream. -/
def release (s : Stream) (m : Memory) : Memory := m.release s.state

/-- Tells that no chunk follows, which can complete some matches. The memory of
the stream is given back. -/
def close (s : Stream) (scratch : Scratch) (policy : Policy) (m : Memory) :
    Checked (Report × Scratch × Memory) := do
  let (report, s, scratch) ← s.scanWith scratch .empty true policy
  return (report, scratch, s.release m)

/-- How many bytes were scanned. -/
def offset (s : Stream) : Checked Nat := StreamState.offset s.state.bytes

/-- Returns whether the stream was stopped. -/
def isTerminated (s : Stream) : Checked Bool := StreamState.isTerminated s.state.bytes

/-- The stream with other bytes as its state. -/
def withBytes (s : Stream) (bytes : Bytes) : Stream := ⟨s.program, ⟨s.state.serial, bytes⟩⟩

/-- Starts the stream again. -/
def reset (s : Stream) : Stream :=
  s.withBytes (StreamState.initial s.state.size s.program.checksum)

/-- Goes on from where another stream of the same program is. -/
def copyFrom (s other : Stream) : Except Error Stream :=
  if s.program.checksum ≠ other.program.checksum ∨ s.state.size ≠ other.state.size then
    .error (.mismatch .foreignState)
  else .ok (s.withBytes other.state.bytes)

/-- Another stream that goes on from where this one is, with a state from the
given memory. -/
def clone (s : Stream) (m : Memory) : Except Error Stream × Memory :=
  match m.request s.state.size with
  | (.ok b, m) => (.ok ⟨s.program, ⟨b.serial, s.state.bytes⟩⟩, m)
  | (.error e, m) => (.error e, m)

/-- Goes on from a saved state. If the bytes are not a state of the program the
stream starts again. -/
def restore (s : Stream) (bytes : Bytes) : Except Error Unit × Stream :=
  if bytes.size ≠ s.state.size then
    (.error (.mismatch (.stateSize s.state.size bytes.size)), s.reset)
  else
    let p := s.program
    match StreamState.validate p.layout p.repeats p.checksum bytes with
    | .ok () => (.ok (), s.withBytes bytes)
    | .error e => (.error (.mismatch e), s.reset)

end Stream

/-- Scans a single block of data, as a stream of its own. -/
def Program.scanBlock (p : Program) (scratch : Scratch) (data : Bytes) (policy : Policy) :
    Checked (Report × Scratch) := do
  match Stream.check p scratch with
  | .error e => return (.error e, scratch)
  | .ok () =>
    -- The state takes the first bytes of the block.
    let block := scratch.block
    let region ← StreamState.reset (← block.bytes.sliceWithin 0 p.streamSize) p.checksum
    let ⟨report, region, buffers⟩ ← p.scanChunk region scratch.buffers data true policy
    let scratch := scratch.withBuffers buffers
    let bytes := region ++ block.bytes.slice p.streamSize (block.size - p.streamSize)
    return (report, { scratch with block := ⟨block.serial, bytes⟩ })

/-- Scans consecutive chunks of a stream, with the same policy for each. -/
def Stream.scanEach (s : Stream) (scratch : Scratch) (policy : Policy) :
    List Bytes → Checked (List Report × Stream × Scratch)
  | [] => return ([], s, scratch)
  | data :: rest => do
    let (report, s, scratch) ← s.scan scratch data policy
    let (reports, s, scratch) ← scanEach s scratch policy rest
    return (report :: reports, s, scratch)

end StreamMatch
