-- The flushes of the scans of a stream. Whatever was scanned before, each flush of the next
-- scan hands over exactly the pending matches before its key.
import StreamMatch.Proofs.Scan.Recorded
import StreamMatch.Proofs.Stream.Calls

namespace StreamMatch

open Bytes

/-- A scan that is prepared flushes, and each of its flushes is exact. -/
structure Prepared.AllFlushesExact (prepared : Prepared) : Prop where
  flushes : ∃ pr limit,
    prepared.scan.SearchFlushes prepared.progress prepared.resume prepared.groups pr limit
  exactly : ∀ pr limit,
    prepared.scan.SearchFlushes prepared.progress prepared.resume prepared.groups pr limit →
      prepared.scan.FlushesExactly pr limit

/-- The flushes that a search records while it goes through the chunk are exact, and there
is one at least. -/
theorem Prepared.AllFlushesExact.exists_recorded {prepared : Prepared}
    (h : prepared.AllFlushesExact) {o : Progress × Action}
    (hsearch : prepared.scan.search prepared.progress prepared.resume prepared.groups = .ok o) :
    ∃ flushes, (prepared.scan.searchRecording prepared.progress prepared.resume
        prepared.groups).run [] = .ok (o, flushes) ∧ flushes ≠ [] ∧
      ∀ flush ∈ flushes, prepared.scan.FlushesExactly flush.1 flush.2 := by
  obtain ⟨flushes, hrun, hmem⟩ := (prepared.scan.records_search _ _ _).exists_recorded hsearch
  obtain ⟨pr, limit, hflush⟩ := h.flushes
  refine ⟨flushes, hrun, List.ne_nil_of_mem ((hmem pr limit).mpr hflush), ?_⟩
  rintro ⟨pr', limit'⟩ hin
  exact h.exactly pr' limit' ((hmem pr' limit').mp hin)

/-- From each state that waits for a chunk a scan can be prepared. -/
theorem Program.Awaits.exists_prepared {p : Program} {stream region data : Bytes} {n : Nat}
    {past : List Event} {isFinal : Bool} (hp : p.Sound) (hsize : stream.size < 0x4000000000000000)
    (h : p.Awaits stream n past region) (hdata : PartOf stream n data)
    (hfinal : isFinal = true → n + data.size = stream.size) (policy : Policy) {buffers : Buffers}
    (hfit : buffers.Fit p) :
    ∃ prepared, p.prepare region buffers data isFinal policy = .ok prepared ∧
      prepared.AllFlushesExact := by
  obtain ⟨resume, reported, states, hready⟩ := h
  have hover := hready.scanOf_over hp hsize hdata hfinal policy
  have hstarts := hready.starts hp hsize hdata hfinal policy
  obtain ⟨seam, -, hprepare⟩ := hready.paused.prepare_eq hp hsize (hready.input_shows hp hdata)
    hready.keeps.tracks isFinal policy hfit
  rw [hready.resume_eq] at hprepare
  exact ⟨_, hprepare, hstarts.exists_flush hover hfit.window_le,
    fun pr limit => hstarts.flush_is_exact hover hfit.window_le⟩

/-- Whatever calls a stream got, if none of them stopped it then the scan of any chunk that
follows, the last one or not, hands over exactly what is due at each of its flushes. -/
theorem Stream.flushes_exactly {p : Program} (hp : p.Built) (hids : p.literals.size ≤ 0x100000000)
    {m m' : Memory} {s : Stream} (hstart : start p m = (.ok s, m')) {calls : List Call}
    {data : Bytes} (hsize : (join (calls.map Call.data) ++ data).size < 0x4000000000000000)
    (hcalls : ∀ c ∈ calls, c.scratch.validate p = .ok ()) {scratch : Scratch}
    (hscratch : scratch.validate p = .ok ()) (isFinal : Bool) (policy : Policy) :
    ∃ results s', s.scanCalls calls = .ok (results, s') ∧ (s'.isTerminated = .ok false →
      ∃ prepared, p.prepare s'.state.bytes scratch.buffers data isFinal policy = .ok prepared ∧
        prepared.AllFlushesExact) := by
  have hsound := hp.sound hids
  have hseen : (join (calls.map Call.data)).size < 0x4000000000000000 := by
    rw [ByteArray.size_append] at hsize
    omega
  obtain ⟨region, results, hscan, -, hafter⟩ := exists_scanCalls hp hids hstart hseen hcalls
  refine ⟨results, s.withBytes region, hscan, fun hrunning => ?_⟩
  rcases hafter _ hsize (PartOf.prefix_of_append _ data) with ⟨past, hawaits⟩ | hstopped
  · have hnext := (PartOf.refl (join (calls.map Call.data) ++ data)).of_append_right
    rw [Nat.zero_add] at hnext
    exact hawaits.exists_prepared hsound hsize hnext (fun _ => ByteArray.size_append.symm) policy
      (Scratch.fit_of_validate hscratch)
  · have hterminated : (s.withBytes region).isTerminated = .ok true :=
      hstopped.isTerminated_eq hsound
    cases hterminated.symm.trans hrunning

/-- A stream is stopped by events only. -/
theorem Stream.isTerminated_of_always {p : Program} (hp : p.Built)
    (hids : p.literals.size ≤ 0x100000000) {m m' : Memory} {s : Stream}
    (hstart : start p m = (.ok s, m')) {scratch : Scratch} (hscratch : scratch.validate p = .ok ())
    {chunks : List Bytes} (hsize : (join chunks).size < 0x4000000000000000)
    {results : List (Report × Scratch)} {s' : Stream}
    (hscan : s.scanCalls (chunks.map fun data => ⟨scratch, data, .always⟩) = .ok (results, s')) :
    s'.isTerminated = .ok false := by
  have hsound := hp.sound hids
  obtain ⟨rfl, hstate⟩ := start_eq_ok hstart
  obtain ⟨told, region, hruns, resume, reported, states, hready⟩ :=
    (s.program.awaits_initial hsound (join chunks)).runs_always hsound hsize (PartOf.refl _)
  rw [← hstate] at hruns
  have hrequests : (chunks.map fun data => (data, Policy.always)) =
      (chunks.map fun data => (⟨scratch, data, .always⟩ : Call)).map Call.request := by
    rw [List.map_map]
    rfl
  rw [hrequests] at hruns
  obtain ⟨results', hscan', -⟩ := scanCalls_of_runs hp.validate (by simp [hscratch]) hruns
  cases hscan.symm.trans hscan'
  exact hready.owns.isTerminated_eq hsound

/-- The bytes `ab` are scanned, and no event stops the stream. -/
def smallCalls : List Call :=
  [.ofList [97, 98]].map fun data => ⟨.smallest smallProgram, data, .always⟩

/-- The `b` is an open run of a stream of the small program, which the next chunk ends. -/
theorem smallProgram_flushes : ∃ s m, Stream.start smallProgram { allocator := .system } =
      (.ok s, m) ∧
    ∃ results s', s.scanCalls smallCalls = .ok (results, s') ∧ s'.isTerminated = .ok false ∧
      ∃ prepared, smallProgram.prepare s'.state.bytes (Scratch.smallest smallProgram).buffers
          (.ofList [99]) false .always = .ok prepared ∧ prepared.AllFlushesExact := by
  obtain ⟨s, m, hstart⟩ := smallProgram_start
  have hscratch := Scratch.validate_smallest smallProgram
  have hsize : (join (smallCalls.map Call.data) ++ ofList [99]).size < 0x4000000000000000 := by
    decide
  obtain ⟨results, s', hscan, hprepared⟩ := Stream.flushes_exactly smallProgram_built
    smallProgram_ids hstart hsize (by simp [smallCalls, hscratch]) hscratch false .always
  have hrunning := Stream.isTerminated_of_always smallProgram_built smallProgram_ids hstart
    hscratch (by decide) hscan
  exact ⟨s, m, hstart, results, s', hscan, hrunning, hprepared hrunning⟩

end StreamMatch
