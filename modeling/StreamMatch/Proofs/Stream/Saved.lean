-- The state of a stream can be saved at any time. It is accepted when it is
-- restored, and the stream that it is restored to goes on as the other one.
import StreamMatch.Proofs.Stream.Calls

namespace StreamMatch

open Bytes

variable {p : Program}

/-- A state that is accepted can be restored to a stream of the program. -/
theorem Stream.restore_eq_ok {s : Stream} {region : Bytes} (hsize : region.size = s.state.size)
    (h : StreamState.validate s.program.layout s.program.repeats s.program.checksum region =
      .ok ()) : s.restore region = (.ok (), s.withBytes region) := by
  unfold restore
  rw [if_neg (by simpa using hsize)]
  simp only [h]

/-- A state that was restored was accepted. -/
theorem Stream.of_restore_eq_ok {s s' : Stream} {region : Bytes}
    (h : s.restore region = (.ok (), s')) :
    region.size = s.state.size ∧ s' = s.withBytes region ∧
      StreamState.validate s.program.layout s.program.repeats s.program.checksum region =
        .ok () := by
  unfold restore at h
  split at h
  · cases h
  · next hsize =>
    dsimp only at h
    split at h
    · next hvalid =>
      cases h
      exact ⟨not_not.mp hsize, rfl, hvalid⟩
    · cases h

/-- After the bytes `seen`, two streams give the same reports for all that follows
and for the close, whichever scratch spaces are used, and have the same state
at last. -/
def Stream.Alike (p : Program) (seen : Bytes) (s s' : Stream) : Prop :=
  ∀ calls calls' : List Call, calls.map Call.request = calls'.map Call.request →
    (∀ c ∈ calls ++ calls', c.scratch.validate p = .ok ()) →
    (seen ++ join (calls.map Call.data)).size < 0x4000000000000000 →
    ∃ results results' last last', s.scanCalls calls = .ok (results, last) ∧
      s'.scanCalls calls' = .ok (results', last') ∧
      results.map Prod.fst = results'.map Prod.fst ∧
      (∀ r ∈ results, ∃ outcome, r.1 = .ok outcome) ∧
      last.state.bytes = last'.state.bytes ∧
      ∀ scratch scratch' policy m m', scratch.validate p = .ok () →
        scratch'.validate p = .ok () →
        ∃ outcome left left', last.close scratch policy m = .ok (.ok outcome, left) ∧
          last'.close scratch' policy m' = .ok (.ok outcome, left')

/-- Streams of a program with the same state are alike. -/
theorem Stream.alike_of_state {s s' : Stream} {seen : Bytes} (hp : s.program.Built)
    (hids : s.program.literals.size ≤ 0x100000000) (hprogram : s'.program = s.program)
    (hbytes : s'.state.bytes = s.state.bytes)
    (hstate : ∀ stream, stream.size < 0x4000000000000000 → PartOf stream 0 seen →
      s.program.StateAfter stream seen.size s.state.bytes) : Alike s.program seen s s' := by
  have hsound := hp.sound hids
  intro calls calls' hsame hscratches hlt
  have hall := PartOf.refl (seen ++ join (calls.map Call.data))
  have hfollows := hall.of_append_right
  rw [Nat.zero_add] at hfollows
  obtain ⟨outcomes, region, hruns, hdone⟩ :=
    (hstate _ hlt hall.of_append_left).exists_calls hsound hlt hfollows
  rw [← ByteArray.size_append] at hdone
  have hruns' := hruns
  rw [hsame, ← hprogram, ← hbytes] at hruns'
  obtain ⟨results, hscan, hreports, -⟩ := scanCalls_of_runs hp.validate
    (fun c hc => hscratches c (List.mem_append_left calls' hc)) hruns
  obtain ⟨results', hscan', hreports', -⟩ := scanCalls_of_runs
    (by rw [hprogram]; exact hp.validate)
    (by rw [hprogram]; exact fun c hc => hscratches c (List.mem_append_right calls hc)) hruns'
  refine ⟨results, results', s.withBytes region, s'.withBytes region, hscan, hscan',
    hreports.trans hreports'.symm, fun r hr => exists_outcome hreports hr, rfl, ?_⟩
  -- The close, from the state that both streams have at last.
  intro scratch scratch' policy m m' hscratch hscratch'
  obtain ⟨status, events, region', hscans⟩ := hdone.exists_close hsound hlt policy
  obtain ⟨left, m₁, hclose, -⟩ :=
    close_of_scans (s := s.withBytes region) hp.validate hscratch hscans m
  have hprogram' : (s'.withBytes region).program = s.program := hprogram
  obtain ⟨left', m₁', hclose', -⟩ := close_of_scans (s := s'.withBytes region)
    (by rw [hprogram']; exact hp.validate) (by rw [hprogram']; exact hscratch')
    (by rw [hprogram']; exact hscans) m'
  exact ⟨(status, events), (left, m₁), (left', m₁'), hclose, hclose'⟩

/-- The state that some calls leave is accepted, and can be restored to another
stream of the program, which goes on as the one that it was saved from. -/
theorem Stream.restored_goes_on (hp : p.Built) (hids : p.literals.size ≤ 0x100000000)
    {m m' : Memory} {s : Stream} (hstart : start p m = (.ok s, m')) {calls : List Call}
    (hsize : (join (calls.map Call.data)).size < 0x4000000000000000)
    (hcalls : ∀ c ∈ calls, c.scratch.validate p = .ok ()) :
    ∃ results s', s.scanCalls calls = .ok (results, s') ∧
      (∀ r ∈ results, ∃ outcome, r.1 = .ok outcome) ∧
      StreamState.validate p.layout p.repeats p.checksum s'.state.bytes = .ok () ∧
      (∀ scratch policy m, scratch.validate p = .ok () →
        ∃ outcome left, s'.close scratch policy m = .ok (.ok outcome, left)) ∧
      ∀ other : Stream, other.program = p → other.state.size = p.streamSize →
        ∃ restored, other.restore s'.state.bytes = (.ok (), restored) ∧
          Alike p (join (calls.map Call.data)) s' restored := by
  have hsound := hp.sound hids
  obtain ⟨region, results, hscan, hresults, hafter⟩ :=
    exists_scanCalls hp hids hstart hsize hcalls
  obtain ⟨rfl, -⟩ := start_eq_ok hstart
  have hstate := hafter _ hsize (PartOf.refl _)
  have hvalid := hstate.validate hsound hsize
  refine ⟨results, s.withBytes region, hscan, fun r hr => (hresults r hr).1, hvalid, ?_, ?_⟩
  · intro scratch policy m hscratch
    obtain ⟨status, events, region', hscans⟩ := hstate.exists_close hsound hsize policy
    obtain ⟨left, m₁, hclose, -⟩ :=
      close_of_scans (s := s.withBytes region) hp.validate hscratch hscans m
    exact ⟨(status, events), (left, m₁), hclose⟩
  · intro other hprogram hother
    have hrestored : other.restore region = (.ok (), other.withBytes region) :=
      restore_eq_ok (hstate.size_eq.trans hother.symm) (by rwa [hprogram])
    exact ⟨other.withBytes region, hrestored,
      alike_of_state (s := s.withBytes region) hp hids hprogram rfl hafter⟩

/-- A stream of the small program, saved after its first byte. -/
theorem smallProgram_restored : ∃ s m, Stream.start smallProgram { allocator := .system } =
      (.ok s, m) ∧
    ∃ results s', s.scanCalls [⟨.smallest smallProgram, .ofList [97], .always⟩] =
        .ok (results, s') ∧
      (∀ r ∈ results, ∃ outcome, r.1 = .ok outcome) ∧
      StreamState.validate smallProgram.layout smallProgram.repeats smallProgram.checksum
        s'.state.bytes = .ok () ∧
      (∀ scratch policy m, scratch.validate smallProgram = .ok () →
        ∃ outcome left, s'.close scratch policy m = .ok (.ok outcome, left)) ∧
      ∀ other : Stream, other.program = smallProgram →
        other.state.size = smallProgram.streamSize →
        ∃ restored, other.restore s'.state.bytes = (.ok (), restored) ∧
          Stream.Alike smallProgram (join [.ofList [97]]) s' restored := by
  obtain ⟨s, m, hstart⟩ := smallProgram_start
  refine ⟨s, m, hstart, Stream.restored_goes_on smallProgram_built smallProgram_ids hstart
    (by decide) ?_⟩
  simp [Scratch.validate_smallest]

end StreamMatch
