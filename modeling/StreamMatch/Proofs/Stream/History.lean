-- The history of a stream is long enough. Each literal that is still to be
-- processed starts in the history or after it, and so do the bytes before it
-- that its automaton looks at, however the stream goes on.
import StreamMatch.Proofs.Stream.Completed

namespace StreamMatch

open Bytes

/-- A state after the bytes `data` knows how many they are and has the last of
them. However the stream goes on, a literal whose key is not before `resume`
starts in the history or after it. So does what its automaton reaches, unless the
history has all the bytes. -/
structure Program.Remembers (p : Program) (data region history : Bytes) (resume : Key) : Prop where
  offset_eq : StreamState.offset region = .ok data.size
  resume_eq : StreamState.resume region = .ok resume
  history_eq : StreamState.history region = .ok history
  size_eq : history.size = min p.historySize data.size
  last_eq : history = data.slice (data.size - history.size) history.size
  start_le : ∀ (rest : Bytes) (i : Nat) (l : Literal) (start : Nat), p.literals[i]? = some l →
    l.bytes.standsAt (data ++ rest) start = true →
    resume ≤ ⟨start + l.bytes.size, p.table.rank (.ofNat i)⟩ → data.size - history.size ≤ start
  least_le : ∀ (rest : Bytes) (i : Nat) (l : Literal) (start : Nat), p.literals[i]? = some l →
    l.bytes.standsAt (data ++ rest) start = true →
    resume ≤ ⟨start + l.bytes.size, p.table.rank (.ofNat i)⟩ →
    ∀ id, l.automaton = some id → ∃ a, p.automata[id.toNat]? = some a ∧
      (((data.size - history.size : Nat) : Int) ≤ start + a.reach.least ∨ history = data)

namespace Program.Ready

variable {p : Program} {stream region : Bytes} {n start i : Nat} {past : List Event} {resume : Key}
  {reported : List RawMatch} {states : Repeat → RunState} {l : Literal} {id : AutomatonId}

/-- The history has the last bytes of the stream, as many as there is space for. -/
theorem history_eq_slice (hp : p.Sound)
    (h : p.Ready stream n past region resume reported states) :
    StreamState.historyOf region =
      stream.slice (n - min p.historySize n) (min p.historySize n) := by
  have hsize := h.size_history hp
  have heq := h.history.eq_slice
  rwa [hsize] at heq

/-- The next scan, if no bytes follow yet. -/
theorem scanOf_over_empty (hp : p.Sound) (hsize : stream.size < 0x4000000000000000)
    (h : p.Ready stream n past region resume reported states) :
    (p.scanOf (h.inputOf hp .empty) false .always).Over stream resume :=
  h.scanOf_over hp hsize (.empty h.le_size) (fun hf => absurd hf (by decide)) .always

/-- A literal that is still to be processed starts in the history or after it. -/
theorem floor_le_start (hp : p.Sound) (hsize : stream.size < 0x4000000000000000)
    (h : p.Ready stream n past region resume reported states) (hl : p.literals[i]? = some l)
    (hresume : resume.endsAt ≤ start + l.bytes.size) : n - min p.historySize n ≤ start := by
  have hfloor := Scan.floor_le (h.scanOf_over_empty hp hsize) hl hresume
  simpa only [scanOf, inputOf, Input.floor, h.size_history hp] using hfloor

/-- What the automaton of such a literal looks at is in the history or after it,
unless it is before the stream. -/
theorem floor_le_least (hp : p.Sound) (hsize : stream.size < 0x4000000000000000)
    (h : p.Ready stream n past region resume reported states) (hl : p.literals[i]? = some l)
    (ha : l.automaton = some id) (hresume : resume.endsAt ≤ start + l.bytes.size) :
    ∃ a, p.automata[id.toNat]? = some a ∧
      (((n - min p.historySize n : Nat) : Int) ≤ start + a.reach.least ∨ n ≤ p.historySize) := by
  have hmem := Array.mem_of_getElem? hl
  obtain ⟨a, hget, -, hbehind, -⟩ := hp.automaton l hmem id ha
  have hfloor := Scan.floor_le_reach (h.scanOf_over_empty hp hsize) hmem hbehind hresume
  simp only [scanOf, inputOf, Input.floor, h.size_history hp] at hfloor
  refine ⟨a, hget, ?_⟩
  omega

theorem remembers (hp : p.Sound) (hsize : stream.size < 0x4000000000000000)
    (h : p.Ready stream stream.size past region resume reported states) :
    p.Remembers stream region (StreamState.historyOf region) resume := by
  have hle := h.owns.header_le hp
  have hlength := h.size_history hp
  have hlast := h.history_eq_slice hp
  refine ⟨?_, ?_, h.history_eq hp, hlength, by rwa [hlength], ?_, ?_⟩
  · rw [StreamState.offset_eq (by omega), h.offset_eq]
  · rw [StreamState.resume_eq (by omega), h.resume_eq]
  · intro rest i l start hl _ hkey
    rw [hlength]
    exact h.floor_le_start hp hsize hl (Key.endsAt_le hkey)
  · intro rest i l start hl _ hkey id ha
    obtain ⟨a, hget, hreach⟩ := h.floor_le_least hp hsize hl ha (Key.endsAt_le hkey)
    refine ⟨a, hget, ?_⟩
    rw [hlength]
    -- A history that is not full has all the bytes.
    refine hreach.imp_right fun hwhole => ?_
    rw [hlast, Nat.min_eq_right hwhole, Nat.sub_self]
    exact (PartOf.refl _).eq_slice.symm

end Program.Ready

/-- After calls that were completed, a stream remembers all the bytes that are
still needed. -/
theorem Stream.history_suffices {p : Program} (hp : p.Built) (hids : p.literals.size ≤ 0x100000000)
    {m m' : Memory} {s : Stream} (hstart : start p m = (.ok s, m')) {calls : List Call}
    (hsize : (join (calls.map Call.data)).size < 0x4000000000000000)
    (hcalls : ∀ c ∈ calls, c.scratch.validate p = .ok ()) :
    ∃ results s', s.scanCalls calls = .ok (results, s') ∧
      ((∀ r ∈ results, r.1.IsCompleted) → ∃ history resume,
        p.Remembers (join (calls.map Call.data)) s'.state.bytes history resume) := by
  obtain ⟨results, region, hscan, hafter⟩ := exists_awaits hp hids hstart hsize hcalls
  refine ⟨results, s.withBytes region, hscan, fun hcompleted => ?_⟩
  obtain ⟨resume, reported, states, hready⟩ := hafter hcompleted _ hsize (PartOf.refl _)
  exact ⟨_, resume, hready.remembers (hp.sound hids) hsize⟩

/-- A stream after the chunks `yxa` and `b`. The `b` waits for the byte after it, and its
automaton looks at the byte before it, so the history has the last three bytes. -/
theorem betweenProgram_history : ∃ s m,
    Stream.start Scan.betweenProgram { allocator := .system } = (.ok s, m) ∧
    ∃ results s', s.scanCalls [⟨.smallest Scan.betweenProgram, .ofList [121, 120, 97], .always⟩,
        ⟨.smallest Scan.betweenProgram, .ofList [98], .always⟩] = .ok (results, s') ∧
      (Scan.betweenProgram.lookbehind = 1 ∧ Scan.betweenProgram.historySize = 3) ∧
      (∀ r ∈ results, r.1.IsCompleted) ∧
      ∃ history resume, Scan.betweenProgram.Remembers
        (join [.ofList [121, 120, 97], .ofList [98]]) s'.state.bytes history resume := by
  obtain ⟨s, m, hstart⟩ := betweenProgram_start
  have hcalls : ∀ c ∈ ([⟨.smallest Scan.betweenProgram, .ofList [121, 120, 97], .always⟩,
      ⟨.smallest Scan.betweenProgram, .ofList [98], .always⟩] : List Call),
      c.scratch.validate Scan.betweenProgram = .ok () := by simp [Scratch.validate_smallest]
  obtain ⟨results, s', hscan, hremembers⟩ := Stream.history_suffices betweenProgram_built
    betweenProgram_ids hstart (by decide) hcalls
  have hcompleted := Stream.completed_of_always betweenProgram_built betweenProgram_ids hstart
    (by decide) hcalls hscan (by simp)
  exact ⟨s, m, hstart, results, s', hscan, by decide, hcompleted, hremembers hcompleted⟩

end StreamMatch
