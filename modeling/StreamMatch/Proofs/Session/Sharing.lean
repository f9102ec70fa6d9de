-- One command for a stream of a session whose streams share a scratch space. What it does
-- depends on the state of the stream alone, and it changes nothing that the other streams
-- depend on.
import Mathlib.Algebra.Ring.Nat
import StreamMatch.Proofs.Session.Run
import StreamMatch.Proofs.Stream.Blocks
import StreamMatch.Proofs.Stream.Calls

namespace StreamMatch

open Bytes

/-! ## Commands -/

namespace Command

/-- The stream that a command scans, closes or resets. -/
def stream? : Command → Option String
  | .scan name _ _ _ | .close name _ _ | .reset name => some name
  | _ => none

/-- The program that a command scans a block with, by its number in the session. -/
def program? : Command → Option Nat
  | .scanBlock program _ _ _ => some program
  | _ => none

/-- How many bytes a command scans. -/
def length : Command → Nat
  | .scan _ _ data _ | .scanBlock _ _ data _ => data.size
  | _ => 0

/-- The command scans with the given scratch space, or resets a stream. -/
def WorksWith (scratch : String) : Command → Prop
  | .scan _ other _ _ | .close _ other _ | .scanBlock _ other _ _ => other = scratch
  | .reset _ => True
  | _ => False

/-- The commands for a stream. -/
def forStream (name : String) (commands : List Command) : List Command :=
  commands.filter (·.stream? == some name)

/-- How many bytes some commands scan for a stream. -/
def total (name : String) (commands : List Command) : Nat :=
  ((forStream name commands).map length).sum

variable {c : Command} {rest : List Command} {name : String}

theorem exists_program {scratch : String} (h : c.WorksWith scratch) (hc : c.stream? = none) :
    ∃ program, c.program? = some program := by
  cases c with
  | scanBlock program => exact ⟨program, rfl⟩
  | scan => cases hc
  | close => cases hc
  | reset => cases hc
  | _ => exact h.elim

/-- A command for a stream scans no block. -/
theorem program?_eq_none (h : c.stream? = some name) : c.program? = none := by
  cases c with
  | scanBlock => cases h
  | _ => rfl

theorem forStream_cons_self (h : c.stream? = some name) :
    forStream name (c :: rest) = c :: forStream name rest := by
  simp [forStream, h]

theorem forStream_cons_of_ne (h : c.stream? ≠ some name) :
    forStream name (c :: rest) = forStream name rest := by
  simp [forStream, h]

theorem total_cons_self (h : c.stream? = some name) :
    total name (c :: rest) = c.length + total name rest := by
  simp [total, forStream_cons_self h]

theorem total_cons_of_ne (h : c.stream? ≠ some name) :
    total name (c :: rest) = total name rest := by
  simp [total, forStream_cons_of_ne h]

end Command

/-! ## States of a stream -/

/-- A state of a stream after the bytes `seen`, however the stream goes on. -/
def Program.Reached (p : Program) (seen region : Bytes) : Prop :=
  ∀ stream, stream.size < 0x4000000000000000 → PartOf stream 0 seen →
    p.StateAfter stream seen.size region

namespace Program.Reached

variable {p : Program} {seen region data : Bytes}

theorem initial (hp : p.Sound) :
    p.Reached .empty (StreamState.initial p.streamSize p.checksum) :=
  fun stream _ _ => p.stateAfter_initial hp stream

theorem size_eq (hsize : seen.size < 0x4000000000000000) (h : p.Reached seen region) :
    region.size = p.streamSize := (h seen hsize (PartOf.refl seen)).size_eq

theorem exists_scan (hp : p.Sound) (h : p.Reached seen region)
    (hsize : seen.size + data.size < 0x4000000000000000) (policy : Policy) :
    ∃ status events region', p.Scans region data false policy status events region' ∧
      p.Reached (seen ++ data) region' := by
  have hsum : (seen ++ data).size = seen.size + data.size := ByteArray.size_append
  have hnot : ∀ n, false = true → seen.size + data.size = n := fun n hf => absurd hf (by decide)
  have hscan : ∀ stream, stream.size < 0x4000000000000000 → PartOf stream 0 (seen ++ data) →
      ∃ status events region', p.Scans region data false policy status events region' ∧
        p.StateAfter stream (seen.size + data.size) region' := by
    intro stream hlt hpart
    have hdata := hpart.of_append_right
    rw [Nat.zero_add] at hdata
    obtain ⟨status, events, region', hscans, hafter⟩ :=
      (h stream hlt hpart.of_append_left).exists_scan hp hlt hdata (hnot _) policy
    exact ⟨status, events, region', hscans, hafter rfl⟩
  obtain ⟨status, events, region', hscans, -⟩ := hscan _ (by omega) (PartOf.refl _)
  refine ⟨status, events, region', hscans, fun stream hlt hpart => ?_⟩
  obtain ⟨_, _, _, hscans', hafter⟩ := hscan stream hlt hpart
  obtain ⟨-, -, rfl⟩ := hscans.unique hscans'
  rwa [hsum]

theorem exists_close (hp : p.Sound) (h : p.Reached seen region)
    (hsize : seen.size < 0x4000000000000000) (policy : Policy) :
    ∃ status events region', p.Scans region .empty true policy status events region' :=
  (h seen hsize (PartOf.refl seen)).exists_close hp hsize policy

end Program.Reached

/-! ## Sessions -/

namespace Session

variable {s s' : Session} {scratch name : String} {c : Command}

/-- The program and the state of a stream, if there is one with the given name. -/
def view (s : Session) (name : String) : Option (Program × Bytes) :=
  (s.streams.find? name).map fun o => (o.value.program, o.value.state.bytes)

theorem exists_of_view {p : Program} {region : Bytes} (h : s.view name = some (p, region)) :
    ∃ o, s.streams.find? name = some o ∧ o.value.program = p ∧ o.value.state.bytes = region := by
  obtain ⟨o, ho, heq⟩ := Option.map_eq_some_iff.mp h
  cases heq
  exact ⟨o, ho, rfl, rfl⟩

theorem find?_eq_none_of_view (h : s.view name = none) : s.streams.find? name = none :=
  Option.map_eq_none_iff.mp h

/-- The programs of a session can all be used with one scratch space, and its streams
are streams of these programs. -/
structure Shares (s : Session) (scratch : String) : Prop where
  programs : ∀ p ∈ s.programs, p.Built ∧ p.literals.size ≤ 0x100000000
  streams : ∀ name o, s.streams.find? name = some o →
    o.value.program ∈ s.programs ∧ ∃ m, s.memory o.memory = some m
  scratch : ∃ k, s.scratches.find? scratch = some k ∧
    ∀ p ∈ s.programs, k.value.validate p = .ok ()

theorem exists_memory_setMemory {i j : Option Nat} (m : Memory) (h : ∃ m, s.memory i = some m) :
    ∃ m', (s.setMemory m j).memory i = some m' := by
  obtain ⟨m₀, hm⟩ := h
  cases j with
  | none =>
    cases i with
    | none => exact ⟨m, rfl⟩
    | some i => exact ⟨m₀, hm⟩
  | some j =>
    cases i with
    | none => exact ⟨m₀, hm⟩
    | some i =>
      have hlt : i < s.memories.size := (Array.getElem?_eq_some_iff.mp hm).1
      have hin : i < (s.memories.setIfInBounds j m).size := by simpa using hlt
      exact ⟨_, Array.getElem?_eq_getElem hin⟩

/-- A session that can share the scratch space after a command for the stream `name`
has only that stream and what the scratch space holds changed. -/
structure Follows (s s' : Session) (scratch name : String) : Prop where
  shares : s'.Shares scratch
  programs_eq : s'.programs = s.programs
  others : ∀ other, other ≠ name → s'.view other = s.view other

theorem Shares.follows (h : s.Shares scratch) (hprograms : s'.programs = s.programs)
    (hmemory : ∀ i, (∃ m, s.memory i = some m) → ∃ m, s'.memory i = some m)
    (hothers : ∀ other, other ≠ name → s'.streams.find? other = s.streams.find? other)
    (hname : ∀ o', s'.streams.find? name = some o' → ∃ o, s.streams.find? name = some o ∧
      o.value.Same o'.value ∧ o'.memory = o.memory)
    (hscratch : ∀ k, s.scratches.find? scratch = some k → ∃ k',
      s'.scratches.find? scratch = some k' ∧ k.value.Same k'.value) :
    s.Follows s' scratch name := by
  refine ⟨⟨by rw [hprograms]; exact h.programs, fun other o' ho' => ?_, ?_⟩, hprograms,
    fun other hne => by rw [view, view, hothers other hne]⟩
  · obtain ⟨o, ho, hprogram, hmem⟩ : ∃ o, s.streams.find? other = some o ∧
        o'.value.program = o.value.program ∧ o'.memory = o.memory := by
      by_cases heq : other = name
      · subst heq
        obtain ⟨o, ho, hsame, hmem⟩ := hname o' ho'
        exact ⟨o, ho, hsame.program_eq, hmem⟩
      · rw [hothers other heq] at ho'
        exact ⟨o', ho', rfl, rfl⟩
    obtain ⟨hin, hex⟩ := h.streams other o ho
    rw [hprogram, hmem, hprograms]
    exact ⟨hin, hmemory _ hex⟩
  · obtain ⟨k, hk, hvalid⟩ := h.scratch
    obtain ⟨k', hk', hsame⟩ := hscratch k hk
    refine ⟨k', hk', fun p hp => ?_⟩
    rw [hprograms] at hp
    rw [hsame.validate_eq, hvalid p hp]

section Steps

variable (h : s.Shares scratch)
include h

theorem Shares.scan {p : Program} {region region' data : Bytes} {policy : Policy} {status : Status}
    {events : Array Event} (hv : s.view name = some (p, region))
    (hscans : p.Scans region data false policy status events region') :
    ∃ s', s.step (.scan name scratch data policy) = .ok (s', .scanned (.ok (status, events))) ∧
      s.Follows s' scratch name ∧ s'.view name = some (p, region') := by
  obtain ⟨k, hk, hvalid⟩ := h.scratch
  obtain ⟨o, ho, rfl, rfl⟩ := exists_of_view hv
  obtain ⟨hin, -⟩ := h.streams name o ho
  obtain ⟨hbuilt, -⟩ := h.programs _ hin
  obtain ⟨left, hscan, -⟩ := Stream.scanWith_of_scans hbuilt.validate (hvalid _ hin) hscans
  obtain ⟨hstream, hscratch⟩ := o.value.scanWith_same _ _ _ _ _ hscan
  refine ⟨_, step_scan ho hk hscan, h.follows rfl (fun _ hm => hm) ?_ ?_ ?_, ?_⟩
  · intro other hne
    exact (Named.find?_insert_of_ne _ _ hne).trans (Named.find?_erase_of_ne _ hne)
  · intro o' ho'
    cases (Named.find?_insert_self ..).symm.trans ho'
    exact ⟨o, ho, hstream, rfl⟩
  · intro k' hk'
    cases hk.symm.trans hk'
    exact ⟨_, Named.find?_insert_self .., hscratch⟩
  · unfold view
    simp only [setScratch, setStream, Named.find?_insert_self, Option.map_some, Stream.withBytes]

theorem Shares.close {p : Program} {region region' : Bytes} {policy : Policy} {status : Status}
    {events : Array Event} (hv : s.view name = some (p, region))
    (hscans : p.Scans region .empty true policy status events region') :
    ∃ s', s.step (.close name scratch policy) = .ok (s', .scanned (.ok (status, events))) ∧
      s.Follows s' scratch name ∧ s'.view name = none := by
  obtain ⟨k, hk, hvalid⟩ := h.scratch
  obtain ⟨o, ho, rfl, rfl⟩ := exists_of_view hv
  obtain ⟨hin, m, hm⟩ := h.streams name o ho
  obtain ⟨hbuilt, -⟩ := h.programs _ hin
  obtain ⟨left, m', hclose, -⟩ := Stream.close_of_scans hbuilt.validate (hvalid _ hin) hscans m
  obtain ⟨hscratch, -⟩ := o.value.close_same _ _ _ _ hclose
  have hstreams : (((s.without name scratch).setMemory m' o.memory).setScratch scratch k
      left).streams = s.streams.erase name := setMemory_streams ..
  refine ⟨_, step_close ho hk hm hclose, h.follows (setMemory_programs ..) ?_ ?_ ?_ ?_, ?_⟩
  · exact fun i hi => exists_memory_setMemory (s := s.without name scratch) m' hi
  · intro other hne
    rw [hstreams, Named.find?_erase_of_ne _ hne]
  · intro o' ho'
    rw [hstreams, Named.find?_erase_self] at ho'
    cases ho'
  · intro k' hk'
    cases hk.symm.trans hk'
    exact ⟨_, Named.find?_insert_self .., hscratch⟩
  · rw [view, hstreams, Named.find?_erase_self]
    rfl

theorem Shares.reset {p : Program} {region : Bytes} (hv : s.view name = some (p, region)) :
    ∃ s', s.step (.reset name) = .ok (s', .done) ∧ s.Follows s' scratch name ∧
      s'.view name = some (p, StreamState.initial region.size p.checksum) := by
  obtain ⟨o, ho, rfl, rfl⟩ := exists_of_view hv
  refine ⟨_, step_reset ho, h.follows rfl (fun _ hm => hm) ?_ ?_ ?_, ?_⟩
  · exact fun other hne => Named.find?_insert_of_ne _ _ hne
  · intro o' ho'
    cases (Named.find?_insert_self ..).symm.trans ho'
    exact ⟨o, ho, o.value.reset_same, rfl⟩
  · exact fun k hk => ⟨k, hk, .refl k.value⟩
  · unfold view
    simp only [setStream, Named.find?_insert_self, Option.map_some, Stream.reset,
      Stream.withBytes, Block.size]

theorem Shares.refl (name : String) : s.Follows s scratch name :=
  ⟨h, rfl, fun _ _ => rfl⟩

omit h in
theorem step_unknown (hc : c.stream? = some name) (hv : s.view name = none) :
    s.step c = .ok (s, .unknownName) := by
  have ho := find?_eq_none_of_view hv
  apply step_of_error
  cases c with
  | scan => cases hc; exact run_bind_error (run_takeBoth_unknown ho)
  | close => cases hc; exact run_bind_error (run_takeBoth_unknown ho)
  | reset => cases hc; exact run_bind_error (run_unknown ho)
  | _ => cases hc

/-- A block is scanned alike in each session, and nothing happens to the streams. -/
theorem Shares.scanBlock {p : Program} {program : Nat} {region data : Bytes} {policy : Policy}
    {status : Status} {events : Array Event} (hp : s.programs[program]? = some p)
    (hscans : p.Scans (StreamState.initial p.streamSize p.checksum) data true policy status events
      region) :
    ∃ s', s.step (.scanBlock program scratch data policy) =
        .ok (s', .scanned (.ok (status, events))) ∧
      s'.Shares scratch ∧ s'.programs = s.programs ∧ s'.view = s.view := by
  obtain ⟨k, hk, hvalid⟩ := h.scratch
  have hin := Array.mem_of_getElem? hp
  obtain ⟨hbuilt, hids⟩ := h.programs p hin
  obtain ⟨left, hscan⟩ :=
    Program.scanBlock_of_scans (hbuilt.sound hids) hbuilt.validate (hvalid p hin) hscans
  have hscratch := p.scanBlock_same _ _ _ _ hscan
  have hfollows : s.Follows (s.setScratch scratch k left) scratch scratch :=
    h.follows rfl (fun _ hm => hm) (fun _ _ => rfl)
      (fun o ho => ⟨o, ho, ⟨rfl, rfl, rfl⟩, rfl⟩) fun k' hk' => by
        cases hk.symm.trans hk'
        exact ⟨_, Named.find?_insert_self .., hscratch⟩
  exact ⟨_, step_scanBlock hp hk hscan, hfollows.shares, rfl, rfl⟩

end Steps

end Session

end StreamMatch
