-- Memory for streams and scratch spaces. Blocks are given by an allocator,
-- which can be replaced in order to track or to limit the memory in use. Each
-- request and each release leaves an event.
import StreamMatch.Bytes
import StreamMatch.Error

namespace StreamMatch

/-- A block of memory, with the serial number it was given. -/
structure Block where
  serial : Nat
  bytes : Bytes
deriving DecidableEq, Repr

namespace Block

/-- The empty block, which does not come from an allocator. -/
def empty : Block := ⟨0, .empty⟩

/-- How many bytes a block has. -/
def size (b : Block) : Nat := b.bytes.size

end Block

/-- What happened to a memory. -/
inductive MemoryEvent where
  /-- A request was refused. -/
  | refused
  /-- A block of the given size was handed out. -/
  | granted (serial size : Nat)
  /-- A block was given back. -/
  | released (serial size : Nat)
deriving DecidableEq, Repr

/-- How an event changes the number of bytes in use. -/
def MemoryEvent.change : MemoryEvent → Int
  | refused => 0
  | granted _ size => size
  | released _ size => -size

/-- Decides what is handed out when a size is requested, from all the events
before. -/
abbrev Allocator := Array MemoryEvent → Nat → Option Bytes

namespace Allocator

/-- A block of zeros for each request, except for those that no machine can
satisfy. -/
def system : Allocator := fun _ size =>
  if size < Bytes.sizeBound then some (.zeros size) else none

/-- The number of bytes in use after some events. -/
def inUse (events : Array MemoryEvent) : Int := events.foldl (fun n e => n + e.change) 0

/-- A block of zeros for each request that keeps the bytes in use within the
limit, if there is one. The block has `extra` bytes more than requested. -/
def metered (limit : Option Nat) (extra : Nat) : Allocator := fun events size =>
  let exceeded := match limit with
    | some limit => decide ((limit : Int) < inUse events + size)
    | none => false
  if exceeded then none else some (.zeros (size + extra))

end Allocator

/-- An allocator and what happened so far. There is also space for candidates, which
does not come from the allocator and is not counted by it. -/
structure Memory where
  allocator : Allocator
  events : Array MemoryEvent := #[]
  /-- Decides whether space of a size can be reserved, from how often that was tried
  before. -/
  reserves : Nat → Nat → Bool := fun _ _ => true
  /-- How often it was tried to reserve space. -/
  reservations : Nat := 0

namespace Memory

/-- Gives a block back. -/
def release (m : Memory) (b : Block) : Memory :=
  { m with events := m.events.push (.released b.serial b.size) }

/-- Gives a block back, unless it is the empty one. -/
def releaseUsed (m : Memory) (b : Block) : Memory := if b.size = 0 then m else m.release b

/-- Asks the allocator for a block. Its serial number is how many events there
were before. -/
def ask (m : Memory) (size : Nat) : Option Block × Memory :=
  match m.allocator m.events size with
  | some bytes =>
    let b : Block := ⟨m.events.size, bytes⟩
    (some b, { m with events := m.events.push (.granted b.serial b.size) })
  | none => (none, { m with events := m.events.push .refused })

/-- Requests a block of a size. A block of another size goes back at once. -/
def request (m : Memory) (size : Nat) : Except Error Block × Memory :=
  match m.ask size with
  | (some b, m) => if b.size = size then (.ok b, m) else (.error .wrongBlockSize, m.release b)
  | (none, m) => (.error (.allocation size), m)

/-- Reserves space of a size that does not come from the allocator. -/
def reserve (m : Memory) (size : Nat) : Except Error Unit × Memory :=
  let result := if m.reserves m.reservations size then .ok () else .error (.allocation size)
  (result, { m with reservations := m.reservations + 1 })

/-- Replaces a block with a new one if it has less than `size` bytes. -/
def grow (m : Memory) (b : Block) (size : Nat) : Except Error Block × Memory :=
  if b.size < size then
    match m.request size with
    | (.ok larger, m) => (.ok larger, m.releaseUsed b)
    | (.error e, m) => (.error e, m)
  else (.ok b, m)

end Memory

end StreamMatch
