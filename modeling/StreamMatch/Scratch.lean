-- Scratch spaces: the memory that a scan works with. It is allocated before,
-- so that scanning never allocates, and it can be used with every program that
-- fits in it.
import StreamMatch.Literal.Candidate
import StreamMatch.Memory
import StreamMatch.Program

namespace StreamMatch

/-- The buffers of a scan. What they hold between two scans has no meaning. -/
structure Buffers where
  /-- The history followed by the first bytes of a chunk. -/
  seam : Bytes
  /-- The bytes that an automaton looks at. -/
  window : Bytes
  /-- The candidates with the same end. -/
  ties : List Candidate
  /-- How many candidates there is space for. -/
  tieCapacity : Nat
deriving DecidableEq, Repr

/-- A scratch space. An empty block stands for a part that was not allocated. -/
structure Scratch where
  seam : Block := .empty
  window : Block := .empty
  /-- The stream state for scanning a single block of data. -/
  block : Block := .empty
  ties : List Candidate := []
  tieCapacity : Nat := 0
deriving DecidableEq, Repr

namespace Scratch

/-- How many bytes a candidate takes. -/
def candidateSize : Nat := 16

/-- How many bytes the scratch space takes. -/
def size (s : Scratch) : Nat :=
  s.seam.size + s.window.size + s.block.size + s.tieCapacity * candidateSize

/-- The buffers of a scratch space. -/
def buffers (s : Scratch) : Buffers := ⟨s.seam.bytes, s.window.bytes, s.ties, s.tieCapacity⟩

/-- Puts back buffers after a scan. -/
def withBuffers (s : Scratch) (b : Buffers) : Scratch :=
  { s with
    seam := ⟨s.seam.serial, b.seam⟩
    window := ⟨s.window.serial, b.window⟩
    ties := b.ties }

/-- Checks that a program fits in the scratch space. -/
def validate (s : Scratch) (p : Program) : Except Error Unit :=
  if s.seam.size < p.seamSize ∨ s.window.size < p.windowSize ∨ s.block.size < p.streamSize
      ∨ s.tieCapacity < p.literals.size then .error (.mismatch .scratch)
  else .ok ()

/-! ## Growing -/

/-- The parts of a scratch space that come from the allocator. -/
inductive Part where
  | seam
  | window
  | block
deriving DecidableEq, Repr

/-- The parts in the order in which they are allocated and released. -/
def parts : List Part := [.seam, .window, .block]

/-- The size that a part must have for a program. -/
def Part.needed (p : Program) : Part → Nat
  | seam => p.seamSize
  | window => p.windowSize
  | block => p.streamSize

/-- The block of a part. -/
def part (s : Scratch) : Part → Block
  | .seam => s.seam
  | .window => s.window
  | .block => s.block

/-- Replaces the block of a part. -/
def setPart (s : Scratch) (b : Block) : Part → Scratch
  | .seam => { s with seam := b }
  | .window => { s with window := b }
  | .block => { s with block := b }

/-- Grows parts for a program, up to the first one that can not be allocated. -/
def growParts (s : Scratch) (m : Memory) (p : Program) :
    List Part → Except Error Unit × Scratch × Memory
  | [] => (.ok (), s, m)
  | part :: rest =>
    match m.grow (s.part part) (part.needed p) with
    | (.ok b, m) => growParts (s.setPart b part) m p rest
    | (.error e, m) => (.error e, s, m)

/-- Makes space for `count` candidates, if there is less. -/
def growTies (s : Scratch) (m : Memory) (count : Nat) : Except Error Unit × Scratch × Memory :=
  if s.tieCapacity < count then
    match m.reserve (count * candidateSize) with
    | (.ok (), m) => (.ok (), { s with tieCapacity := count }, m)
    | (.error e, m) => (.error e, s, m)
  else (.ok (), s, m)

/-- Makes the scratch space large enough for a program. When that fails the
parts that were grown stay so. -/
def growFor (s : Scratch) (m : Memory) (p : Program) : Except Error Unit × Scratch × Memory :=
  match p.validate with
  | .error e => (.error e, s, m)
  | .ok () =>
    match s.growParts m p parts with
    | (.ok (), s, m) => s.growTies m p.literals.size
    | failed => failed

/-- Gives back all the memory of a scratch space. The space for candidates does not come
from the allocator. -/
def release (s : Scratch) (m : Memory) : Memory :=
  parts.foldl (fun m part => m.releaseUsed (s.part part)) m

/-- A scratch space for a program. When it can not be made large enough, the parts that
were allocated for it are given back. -/
def allocate (m : Memory) (p : Program) : Except Error Scratch × Memory :=
  match growFor {} m p with
  | (.ok (), s, m) => (.ok s, m)
  | (.error e, s, m) => (.error e, s.release m)

end Scratch

end StreamMatch
