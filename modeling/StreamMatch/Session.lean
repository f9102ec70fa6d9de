-- Sessions: several streams and scratch spaces, each with a name, that share
-- programs and memories. A session performs commands one after the other.
import StreamMatch.Bytes.Within
import StreamMatch.Stream

namespace StreamMatch

/-- Values with names. There is at most one value for each name. -/
abbrev Named (α : Type) := List (String × α)

namespace Named

variable {α : Type}

/-- The value with a name. -/
def find? (values : Named α) (name : String) : Option α := values.lookup name

/-- The values with other names. -/
def erase (values : Named α) (name : String) : Named α := values.filter fun v => v.1 != name

/-- Gives a value to a name. -/
def insert (values : Named α) (name : String) (a : α) : Named α := (name, a) :: values.erase name

end Named

/-- Something that lives in one of the memories of a session. -/
structure Owned (α : Type) where
  value : α
  /-- The number of the memory, the common one if there is none. -/
  memory : Option Nat

/-- What a session has. -/
structure Session where
  programs : Array Program
  /-- The memory for everything that does not ask for another one. -/
  common : Memory := { allocator := .system }
  memories : Array Memory := #[]
  scratches : Named (Owned Scratch) := []
  streams : Named (Owned Stream) := []
  /-- States that were saved. -/
  saved : Named Bytes := []

/-- How a saved state is altered before it is restored. -/
structure Alteration where
  /-- Bytes to replace, and their positions. -/
  patches : List (Nat × Bytes) := []
  /-- The size at last. -/
  size : Option Nat := none

/-- What can be asked from a session. -/
inductive Command where
  | allocateScratch (name : String) (program : Nat) (memory : Option Nat)
  | growScratch (name : String) (program : Nat)
  | dropScratch (name : String)
  | scanBlock (program : Nat) (scratch : String) (data : Bytes) (policy : Policy)
  | start (stream : String) (program : Nat) (memory : Option Nat)
  | scan (stream scratch : String) (data : Bytes) (policy : Policy)
  | close (stream scratch : String) (policy : Policy)
  | reset (stream : String)
  | copy (stream source : String)
  | clone (stream source : String)
  | save (stream slot : String)
  | restoreSaved (stream slot : String) (alteration : Alteration)
  | restore (stream : String) (bytes : Bytes) (alteration : Alteration)
  | drop (stream : String)

/-- The answer to a command. -/
inductive Reply where
  | done
  | failed (e : Error)
  | scanned (report : Report)
  /-- The size of a scratch space that was allocated. -/
  | allocated (size : Nat)
  /-- The size of a scratch space after trying to grow it. -/
  | grown (result : Except Error Unit) (size : Nat)
  /-- Whether there was something to drop. -/
  | dropped (existed : Bool)
  /-- The command names something that does not exist. -/
  | unknownName

/-- Applies patches in order, which must be inside the bytes, and then changes
the size. -/
def Alteration.apply (a : Alteration) (bytes : Bytes) : Checked Bytes := do
  let bytes ← a.patches.foldlM (fun bytes p => bytes.overwriteWithin p.1 p.2) bytes
  match a.size with
  | some size => bytes.resizeWithin size
  | none => return bytes

namespace Session

/-- A memory of the session. -/
def memory (s : Session) : Option Nat → Option Memory
  | none => some s.common
  | some i => s.memories[i]?

/-- Replaces a memory of the session. -/
def setMemory (s : Session) (m : Memory) : Option Nat → Session
  | none => { s with common := m }
  | some i => { s with memories := s.memories.setIfInBounds i m }

/-- Lets go of something that was replaced or dropped. -/
def letGo {α : Type} (s : Session) (release : α → Memory → Memory) (old : Option (Owned α)) :
    Session :=
  match old with
  | none => s
  | some old =>
    match s.memory old.memory with
    | some m => s.setMemory (release old.value m) old.memory
    | none => s

/-- Gives a name to a new stream, in place of the one that had the name. -/
def putStream (s : Session) (name : String) (stream : Owned Stream) : Session :=
  letGo { s with streams := s.streams.insert name stream } Stream.release (s.streams.find? name)

/-- Gives a name to a new scratch space, in place of the one that had the
name. -/
def putScratch (s : Session) (name : String) (scratch : Owned Scratch) : Session :=
  letGo { s with scratches := s.scratches.insert name scratch } Scratch.release
    (s.scratches.find? name)

/-- Changes the value of a stream. -/
def setStream (s : Session) (name : String) (o : Owned Stream) (stream : Stream) : Session :=
  { s with streams := s.streams.insert name ⟨stream, o.memory⟩ }

/-- Changes the value of a scratch space. -/
def setScratch (s : Session) (name : String) (o : Owned Scratch) (scratch : Scratch) : Session :=
  { s with scratches := s.scratches.insert name ⟨scratch, o.memory⟩ }

/-- The value of an option, or the reply that the name is unknown. -/
def known {α : Type} (a : Option α) : ExceptT Reply Checked α :=
  match a with
  | some a => pure a
  | none => throw .unknownName

/-- The stream and the scratch space with the given names, and the session
without them. -/
def takeBoth (s : Session) (stream scratch : String) :
    ExceptT Reply Checked (Session × Owned Stream × Owned Scratch) := do
  let st ← known (s.streams.find? stream)
  let sc ← known (s.scratches.find? scratch)
  return ({ s with
    streams := s.streams.erase stream
    scratches := s.scratches.erase scratch }, st, sc)

/-- Restores a stream from bytes. -/
def restoreFrom (s : Session) (stream : String) (bytes : Bytes) (a : Alteration) :
    ExceptT Reply Checked (Session × Reply) := do
  let o ← known (s.streams.find? stream)
  let bytes ← a.apply bytes
  let (result, restored) := o.value.restore bytes
  let s := s.setStream stream o restored
  return match result with
    | .ok () => (s, .done)
    | .error e => (s, .failed e)

/-- Performs a command. When a name is unknown nothing happens. -/
def perform (s : Session) : Command → ExceptT Reply Checked (Session × Reply)
  | .allocateScratch name program i => do
    let p ← known s.programs[program]?
    match Scratch.allocate (← known (s.memory i)) p with
    | (.ok scratch, m) =>
      return ((s.setMemory m i).putScratch name ⟨scratch, i⟩, .allocated scratch.size)
    | (.error e, m) => return (s.setMemory m i, .failed e)
  | .growScratch name program => do
    let p ← known s.programs[program]?
    let o ← known (s.scratches.find? name)
    let (result, scratch, m) := o.value.growFor (← known (s.memory o.memory)) p
    return ((s.setMemory m o.memory).setScratch name o scratch, .grown result scratch.size)
  | .dropScratch name => do
    let old := s.scratches.find? name
    return (letGo { s with scratches := s.scratches.erase name } Scratch.release old,
      .dropped old.isSome)
  | .scanBlock program scratch data policy => do
    let p ← known s.programs[program]?
    let o ← known (s.scratches.find? scratch)
    let (report, used) ← p.scanBlock o.value data policy
    return (s.setScratch scratch o used, .scanned report)
  | .start stream program i => do
    let p ← known s.programs[program]?
    match Stream.start p (← known (s.memory i)) with
    | (.ok st, m) => return ((s.setMemory m i).putStream stream ⟨st, i⟩, .done)
    | (.error e, m) => return (s.setMemory m i, .failed e)
  | .scan stream scratch data policy => do
    let (s, st, sc) ← s.takeBoth stream scratch
    let (report, stream', scratch') ← st.value.scan sc.value data policy
    return ((s.setStream stream st stream').setScratch scratch sc scratch', .scanned report)
  | .close stream scratch policy => do
    let (s, st, sc) ← s.takeBoth stream scratch
    let m ← known (s.memory st.memory)
    let (report, scratch', m) ← st.value.close sc.value policy m
    return ((s.setMemory m st.memory).setScratch scratch sc scratch', .scanned report)
  | .reset stream => do
    let o ← known (s.streams.find? stream)
    return (s.setStream stream o o.value.reset, .done)
  | .copy stream source => do
    let o ← known (s.streams.find? stream)
    let other ← known (s.streams.find? source)
    match o.value.copyFrom other.value with
    | .ok st => return (s.setStream stream o st, .done)
    | .error e => return (s, .failed e)
  | .clone stream source => do
    let o ← known (s.streams.find? source)
    match o.value.clone (← known (s.memory o.memory)) with
    | (.ok st, m) => return ((s.setMemory m o.memory).putStream stream ⟨st, o.memory⟩, .done)
    | (.error e, m) => return (s.setMemory m o.memory, .failed e)
  | .save stream slot => do
    let o ← known (s.streams.find? stream)
    return ({ s with saved := s.saved.insert slot o.value.state.bytes }, .done)
  | .restoreSaved stream slot a => do
    s.restoreFrom stream (← known (s.saved.find? slot)) a
  | .restore stream bytes a => s.restoreFrom stream bytes a
  | .drop stream => do
    let old := s.streams.find? stream
    return (letGo { s with streams := s.streams.erase stream } Stream.release old,
      .dropped old.isSome)

/-- Performs a command and gives its reply. -/
def step (s : Session) (c : Command) : Checked (Session × Reply) := do
  match ← (s.perform c).run with
  | .ok result => return result
  | .error reply => return (s, reply)

/-- What happened to each memory, other than the common one, since an earlier
point of the session. -/
def eventsSince (s earlier : Session) : List (List MemoryEvent) :=
  (s.memories.toList.zip earlier.memories.toList).map fun (now, before) =>
    now.events.toList.drop before.events.size

end Session

end StreamMatch
