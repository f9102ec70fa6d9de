-- No operation of a stream that was opened fails, whatever is scanned and however
-- the events are answered: all that is read and written is in its place, and
-- every condition that is checked on the way holds.
import StreamMatch.Proofs.Stream.Calls

namespace StreamMatch

open Bytes

/-- The groups of candidates that a scan puts in the space for candidates, one after the
other, are found and fit in it. -/
def Prepared.TiesFit (c : Prepared) (capacity : Nat) : Prop :=
  ∃ groups : List (List Candidate), c.groups = groups.map .ok ∧ ∀ g ∈ groups, g.length ≤ capacity

/-- A scan gets as far as its search, which has space for the candidates with the same end. -/
def Program.Prepares (p : Program) (region : Bytes) (buffers : Buffers) (data : Bytes)
    (isFinal : Bool) (policy : Policy) : Prop :=
  ∃ c, p.prepare region buffers data isFinal policy = .ok c ∧ c.TiesFit buffers.tieCapacity

variable {p : Program}

/-- The candidates with the same end are at most as many as the literals. -/
theorem Program.Awaits.prepares {stream region data : Bytes} {n : Nat} {past : List Event}
    {buffers : Buffers} (hp : p.Sound) (hsize : stream.size < 0x4000000000000000)
    (h : p.Awaits stream n past region) (hdata : PartOf stream n data) (hfit : buffers.Fit p)
    (isFinal : Bool) (policy : Policy) : p.Prepares region buffers data isFinal policy := by
  obtain ⟨resume, reported, states, hready⟩ := h
  have hshows := hready.input_shows hp hdata
  obtain ⟨seam, -, hprepare⟩ :=
    hready.paused.prepare_eq hp hsize hshows hready.keeps.tracks isFinal policy hfit
  refine ⟨_, hprepare, _, rfl, fun g hg => ?_⟩
  rw [hp.table_eq] at hg
  have hlength := Searched.length_le_of_mem_candidateGroups hp.searchable
    (Program.size_literalBytes_le hp) (hready.paused.shows hp hsize hshows) hg
  rw [Program.Sound.size_literalBytes] at hlength
  exact Nat.le_trans hlength hfit.ties_le

/-- A stream can be closed after the bytes `seen`, and however it goes on, the scan
of the next chunk never finds more candidates together than there is space for. -/
structure Stream.Works (p : Program) (seen : Bytes) (scratch : Scratch) (s : Stream) : Prop where
  closes : ∀ policy m, ∃ outcome scratch' m',
    s.close scratch policy m = .ok (.ok outcome, scratch', m') ∧ scratch'.validate p = .ok ()
  ties : ∀ data isFinal policy, (seen ++ data).size < 0x4000000000000000 →
    s.isTerminated = .ok false → p.Prepares s.state.bytes scratch.buffers data isFinal policy

theorem Stream.works_of_state {s : Stream} {seen : Bytes} {scratch : Scratch}
    (hp : s.program.Built) (hids : s.program.literals.size ≤ 0x100000000)
    (hsize : seen.size < 0x4000000000000000) (hscratch : scratch.validate s.program = .ok ())
    (hstate : ∀ stream, stream.size < 0x4000000000000000 → PartOf stream 0 seen →
      s.program.StateAfter stream seen.size s.state.bytes) : Works s.program seen scratch s := by
  have hsound := hp.sound hids
  refine ⟨fun policy m => ?_, fun data isFinal policy hlt hrunning => ?_⟩
  · obtain ⟨status, events, region, hscans⟩ :=
      (hstate seen hsize (PartOf.refl seen)).exists_close hsound hsize policy
    obtain ⟨scratch', m', hclose, hvalid⟩ := close_of_scans hp.validate hscratch hscans m
    exact ⟨(status, events), scratch', m', hclose, hvalid⟩
  · rcases hstate _ hlt (PartOf.prefix_of_append seen data) with ⟨past, hawaits⟩ | hstopped
    · have hnext := (PartOf.refl (seen ++ data)).of_append_right
      rw [Nat.zero_add] at hnext
      exact hawaits.prepares hsound hlt hnext (Scratch.fit_of_validate hscratch) isFinal policy
    · have hterminated := hstopped.isTerminated_eq hsound
      rw [isTerminated, hterminated] at hrunning
      cases hrunning

/-- From the start of a stream on, each scan and each close gives an outcome and a
scratch space that the program still fits in. So does the scan of a block. -/
theorem Stream.never_fails (hp : p.Built) (hids : p.literals.size ≤ 0x100000000) {m m' : Memory}
    {s : Stream} (hstart : start p m = (.ok s, m')) {calls : List Call}
    (hsize : (join (calls.map Call.data)).size < 0x4000000000000000)
    (hcalls : ∀ c ∈ calls, c.scratch.validate p = .ok ()) {scratch : Scratch}
    (hscratch : scratch.validate p = .ok ()) :
    (∃ results s', s.scanCalls calls = .ok (results, s') ∧
      (∀ r ∈ results, (∃ outcome, r.1 = .ok outcome) ∧ r.2.validate p = .ok ()) ∧
      s'.Works p (join (calls.map Call.data)) scratch) ∧
    ∀ data policy, data.size < 0x4000000000000000 →
      (∃ outcome scratch', p.scanBlock scratch data policy = .ok (.ok outcome, scratch')) ∧
      p.Prepares (StreamState.initial p.streamSize p.checksum) scratch.buffers data true policy := by
  have hsound := hp.sound hids
  obtain ⟨region, results, hscan, hresults, hafter⟩ :=
    exists_scanCalls hp hids hstart hsize hcalls
  obtain ⟨rfl, -⟩ := start_eq_ok hstart
  refine ⟨⟨results, s.withBytes region, hscan, hresults, ?_⟩, ?_⟩
  · exact works_of_state (s := s.withBytes region) hp hids hsize hscratch hafter
  · intro data policy hlt
    refine ⟨?_, ?_⟩
    · have hlast : true = true → 0 + data.size = data.size := fun _ => Nat.zero_add _
      obtain ⟨status, events, region', hscans, -⟩ := (s.program.stateAfter_initial hsound
        data).exists_scan hsound hlt (PartOf.refl data) hlast policy
      obtain ⟨scratch', hblock⟩ := Program.scanBlock_of_scans hsound hp.validate hscratch hscans
      exact ⟨(status, events), scratch', hblock⟩
    · exact (s.program.awaits_initial hsound data).prepares hsound hlt (PartOf.refl data)
        (Scratch.fit_of_validate hscratch) true policy

/-- A stream of the small program that is stopped by its first event, and then
scanned again. -/
theorem smallProgram_never_fails : ∃ s m, Stream.start smallProgram { allocator := .system } =
      (.ok s, m) ∧
    (∃ results s', s.scanCalls [⟨.smallest smallProgram, .ofList [97, 98], .stopAt (some 1)⟩,
        ⟨.smallest smallProgram, .ofList [98], .always⟩] = .ok (results, s') ∧
      (∀ r ∈ results, (∃ outcome, r.1 = .ok outcome) ∧ r.2.validate smallProgram = .ok ()) ∧
      s'.Works smallProgram (join [.ofList [97, 98], .ofList [98]]) (.smallest smallProgram)) ∧
    ∀ data policy, data.size < 0x4000000000000000 →
      (∃ outcome scratch', smallProgram.scanBlock (.smallest smallProgram) data policy =
        .ok (.ok outcome, scratch')) ∧
      smallProgram.Prepares (StreamState.initial smallProgram.streamSize smallProgram.checksum)
        (Scratch.smallest smallProgram).buffers data true policy := by
  obtain ⟨s, m, hstart⟩ := smallProgram_start
  refine ⟨s, m, hstart, Stream.never_fails smallProgram_built smallProgram_ids hstart (by decide)
    ?_ (Scratch.validate_smallest _)⟩
  simp [Scratch.validate_smallest]

end StreamMatch
