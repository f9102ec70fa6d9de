-- What a stream remembers of its repeats. It depends on the bytes scanned and the
-- resume key alone: not on the chunks in which the bytes came, and not on what was
-- put off and done again.
import StreamMatch.Proofs.Stream.Completed

namespace StreamMatch

open Bytes

namespace Repeat

/-- A run that was found and has ended, whose match is within the bounds but is not
before the resume key. -/
structure Withholds (r : Repeat) (data : Bytes) (resume : Key) (first stop : Nat) : Prop where
  finds : r.Finds data resume first stop
  ended : stop < data.size
  within : r.Within (stop - first)
  resume_le : resume ≤ r.keyAt data stop

/-- The state of a repeat after the bytes `data`. There is an open run if the run
that ends the data was found, and a pending match if that of some run is withheld. -/
structure Stored (r : Repeat) (data region : Bytes) (resume : Key) (t : Tracker) : Prop where
  isOpen_iff : t.isOpen region = true ↔ 0 < data.size ∧
    r.allowed.contains (byteAt data (data.size - 1)) = true ∧
    ∃ first, r.allowed.IsRun data first data.size ∧ r.keyAt data (first + 1) < resume
  runEnd_eq : t.isOpen region = true → t.runEnd? region = some data.size
  runLength_eq : t.isOpen region = true → ∀ first, r.allowed.IsRun data first data.size →
    t.runLength region = match r.most with
      | .finite most => min (data.size - first) (most + 1)
      | .infinite => data.size - first
  pending_eq : ∃ pending, t.pending? region = .ok pending ∧ ∀ m, pending = some m ↔
    ∃ first stop, r.Withholds data resume first stop ∧ m = r.runOf data first stop
  unique : ∀ first stop first' stop', r.Withholds data resume first stop →
    r.Withholds data resume first' stop' → first = first' ∧ stop = stop'

/-- The run that ends the data is the only one there. -/
theorem first_unique {c : ByteClass} {data : Bytes} {first first' : Nat}
    (h : c.IsRun data first data.size) (h' : c.IsRun data first' data.size) : first = first' := by
  have hlt := h.lt
  have hlt' := h'.lt
  exact (h.eq_of_mem h' (i := data.size - 1) ⟨by omega, by omega⟩ ⟨by omega, by omega⟩).1

end Repeat

namespace Program.Ready

variable {p : Program} {stream region : Bytes} {n first stop : Nat} {past : List Event}
  {resume : Key} {reported : List RawMatch} {states : Repeat → RunState} {r : Repeat}

/-- The match of a run that was found was not reported if it is not before the
resume key. -/
theorem notMem_reported_iff (h : p.Ready stream n past region resume reported states)
    (hr : r ∈ p.repeats) (hf : r.Finds stream resume first stop) (hstop : stop < n)
    (ha : r.accepts (stop - first) = true) :
    r.matchOf stream first stop ∉ reported ↔ resume ≤ r.keyAt stream stop := by
  constructor
  · intro hnot
    refine h.waits r hr (r.runOf stream first stop) ?_
    exact ((h.found r hr).pending_iff _).mpr ⟨first, stop, hf, Or.inl hstop, ha, rfl, hnot⟩
  · exact fun hle hmem => absurd (h.below _ hmem) (not_lt_of_ge hle)

/-- The pending match is that of the run that is withheld. -/
theorem pending_iff_withholds
    (h : p.Ready stream stream.size past region resume reported states) (hr : r ∈ p.repeats)
    (m : Run) : (states r).pending = some m ↔
      ∃ first stop, r.Withholds stream resume first stop ∧ m = r.runOf stream first stop := by
  rw [(h.found r hr).pending_iff]
  constructor
  · rintro ⟨first, stop, hf, hended, ha, rfl, hnot⟩
    have hstop : stop < stream.size := hended.resolve_right (by simp)
    exact ⟨first, stop, ⟨hf, hstop, Repeat.accepts_iff.mp ha, (h.notMem_reported_iff hr hf hstop ha).mp hnot⟩, rfl⟩
  · rintro ⟨first, stop, ⟨hf, hstop, hwithin, hle⟩, rfl⟩
    have ha := Repeat.accepts_iff.mpr hwithin
    exact ⟨first, stop, hf, Or.inl hstop, ha, rfl, (h.notMem_reported_iff hr hf hstop ha).mpr hle⟩

/-- There is an open run if the run that ends the stream was found. -/
theorem length_pos_iff (h : p.Ready stream stream.size past region resume reported states)
    (hr : r ∈ p.repeats) :
    0 < (states r).length ↔ ∃ first, r.Finds stream resume first stream.size := by
  constructor
  · intro hpos
    obtain ⟨-, -, -, first, stop, hf, hle, -⟩ := (h.found r hr).isOpen hpos
    obtain rfl : stop = stream.size := Nat.le_antisymm hf.isRun.le_size hle
    exact ⟨first, hf⟩
  · rintro ⟨first, hf⟩
    exact (h.found r hr).opened first stream.size hf (Nat.le_refl _) rfl

/-- The length of the open run. -/
theorem length_eq (h : p.Ready stream stream.size past region resume reported states)
    (hr : r ∈ p.repeats) (hpos : 0 < (states r).length)
    (hrun : r.allowed.IsRun stream first stream.size) :
    (states r).length = stream.size - first := by
  obtain ⟨-, -, -, first', stop, hf, hle, hlength⟩ := (h.found r hr).isOpen hpos
  obtain rfl : stop = stream.size := Nat.le_antisymm hf.isRun.le_size hle
  rw [hlength, Repeat.first_unique hf.isRun hrun]

theorem stored (hp : p.Sound) (hsize : stream.size < 0x4000000000000000)
    (h : p.Ready stream stream.size past region resume reported states) (hr : r ∈ p.repeats) :
    r.Stored stream region resume (p.layout.place r) := by
  have htracks := h.keeps.tracks r hr
  have htrackable := hp.trackable r hr
  have hopen : (p.layout.place r).isOpen region = true ↔ 0 < (states r).length := by
    rw [htracks.isOpen_eq htrackable, decide_eq_true_iff]
  refine ⟨?_, ?_, ?_, ?_, ?_⟩
  · rw [hopen, h.length_pos_iff hr]
    constructor
    · rintro ⟨first, hf⟩
      have hlt := hf.isRun.lt
      exact ⟨by omega, hf.isRun.inside _ (by omega) (by omega), first, hf.isRun, hf.trigger⟩
    · rintro ⟨-, -, first, hrun, htrigger⟩
      exact ⟨first, hrun, htrigger⟩
  · intro ho
    obtain ⟨-, -, hlast, -⟩ := (h.found r hr).isOpen (hopen.mp ho)
    rw [htracks.lastEnd_eq, hlast]
  · intro ho first hrun
    rw [htracks.runLength_eq htrackable, h.length_eq hr (hopen.mp ho) hrun]
    unfold Layout.place Repeat.window
    rcases r.most with most | _
    · rfl
    · -- Without a bound, the window is longer than all streams.
      refine Nat.min_eq_left ?_
      simp only [Bound.value?, Word.largest, Word.bound]
      omega
  · exact ⟨_, htracks.pending_eq, h.pending_iff_withholds hr⟩
  · intro first stop first' stop' hw hw'
    have hpending := (h.pending_iff_withholds hr _).mpr ⟨first, stop, hw, rfl⟩
    have hpending' := (h.pending_iff_withholds hr _).mpr ⟨first', stop', hw', rfl⟩
    rw [hpending, Option.some.injEq] at hpending'
    exact ⟨congrArg Run.startsAt hpending', congrArg Run.endsAt hpending'⟩

end Program.Ready

/-- After calls that were completed, the state of each repeat follows from the bytes
scanned and the resume key. -/
theorem Stream.repeats_determined {p : Program} (hp : p.Built)
    (hids : p.literals.size ≤ 0x100000000) {m m' : Memory} {s : Stream}
    (hstart : start p m = (.ok s, m')) {calls : List Call}
    (hsize : (join (calls.map Call.data)).size < 0x4000000000000000)
    (hcalls : ∀ c ∈ calls, c.scratch.validate p = .ok ()) :
    ∃ results s', s.scanCalls calls = .ok (results, s') ∧
      ((∀ r ∈ results, r.1.IsCompleted) →
        ∃ resume, StreamState.resume s'.state.bytes = .ok resume ∧
          ∀ r ∈ p.repeats, ∃ t, p.layout.tracker r s'.state.bytes = .ok t ∧
            r.Stored (join (calls.map Call.data)) s'.state.bytes resume t) := by
  have hsound := hp.sound hids
  obtain ⟨results, region, hscan, hafter⟩ := exists_awaits hp hids hstart hsize hcalls
  refine ⟨results, s.withBytes region, hscan, fun hcompleted => ?_⟩
  obtain ⟨resume, reported, states, hready⟩ := hafter hcompleted _ hsize (PartOf.refl _)
  have hle := hready.owns.header_le hsound
  have hresume : StreamState.resume region = .ok resume := by
    rw [StreamState.resume_eq (by omega), hready.resume_eq]
  refine ⟨resume, hresume, fun r hr => ⟨p.layout.place r, ?_, hready.stored hsound hsize hr⟩⟩
  exact Layout.tracker_eq_place hsound.layout hr hready.owns.size_eq

/-- A stream of the small program after the chunks `xb` and `b`. -/
theorem smallProgram_repeats : ∃ s m, Stream.start smallProgram { allocator := .system } =
      (.ok s, m) ∧
    ∃ results s', s.scanCalls [⟨.smallest smallProgram, .ofList [120, 98], .always⟩,
        ⟨.smallest smallProgram, .ofList [98], .always⟩] = .ok (results, s') ∧
      (∀ r ∈ results, r.1.IsCompleted) ∧
      ∃ resume, StreamState.resume s'.state.bytes = .ok resume ∧
        ∀ r ∈ smallProgram.repeats, ∃ t, smallProgram.layout.tracker r s'.state.bytes = .ok t ∧
          r.Stored (join [.ofList [120, 98], .ofList [98]]) s'.state.bytes resume t := by
  obtain ⟨s, m, hstart⟩ := smallProgram_start
  have hcalls : ∀ c ∈ ([⟨.smallest smallProgram, .ofList [120, 98], .always⟩,
      ⟨.smallest smallProgram, .ofList [98], .always⟩] : List Call),
      c.scratch.validate smallProgram = .ok () := by simp [Scratch.validate_smallest]
  obtain ⟨results, s', hscan, hstored⟩ := Stream.repeats_determined smallProgram_built
    smallProgram_ids hstart (by decide) hcalls
  have hcompleted := Stream.completed_of_always smallProgram_built smallProgram_ids hstart
    (by decide) hcalls hscan (by simp)
  exact ⟨s, m, hstart, results, s', hscan, hcompleted, hstored hcompleted⟩

end StreamMatch
