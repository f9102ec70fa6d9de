-- The operations of a stream, one call after the other. A call gives back a
-- scratch space that the program still fits in.
import StreamMatch.Proofs.Memory.Growing
import StreamMatch.Proofs.Stream.Runs

namespace StreamMatch

open Bytes

/-- A call of `scan`, with a scratch space of its own. -/
structure Call where
  scratch : Scratch
  data : Bytes
  policy : Policy

/-- What a call asks for, without the memory to do it. -/
def Call.request (c : Call) : Bytes × Policy := (c.data, c.policy)

theorem Call.map_fst_request (calls : List Call) :
    (calls.map request).map Prod.fst = calls.map data := by
  rw [List.map_map]
  rfl

/-- Performs some calls. Each report comes with the scratch space that the call
gives back. -/
def Stream.scanCalls (s : Stream) : List Call → Checked (List (Report × Scratch) × Stream)
  | [] => return ([], s)
  | c :: rest => do
    let (report, s, scratch) ← s.scan c.scratch c.data c.policy
    let (results, s) ← scanCalls s rest
    return ((report, scratch) :: results, s)

/-- The chunks of some calls can be scanned from each state of a stream. -/
theorem Program.StateAfter.exists_calls {p : Program} {stream region : Bytes} {n : Nat}
    (hp : p.Sound) (hsize : stream.size < 0x4000000000000000) (h : p.StateAfter stream n region)
    {calls : List Call} (hparts : PartOf stream n (join (calls.map Call.data))) :
    ∃ outcomes region', p.Runs region (calls.map Call.request) outcomes region' ∧
      p.StateAfter stream (n + (join (calls.map Call.data)).size) region' := by
  rw [← Call.map_fst_request] at hparts ⊢
  exact h.exists_runs hp hsize hparts

/-! ## Scratch spaces -/

namespace Scratch

variable {scratch : Scratch} {p : Program}

theorem fit_of_validate (h : scratch.validate p = .ok ()) : scratch.buffers.Fit p := by
  obtain ⟨hparts, hties⟩ := validate_eq_ok_iff.mp h
  exact ⟨hparts .seam, hparts .window, hties⟩

/-- A scratch space with just the space that a program needs. -/
def smallest (p : Program) : Scratch :=
  { seam := ⟨0, .zeros p.seamSize⟩
    window := ⟨1, .zeros p.windowSize⟩
    block := ⟨2, .zeros p.streamSize⟩
    tieCapacity := p.literals.size }

theorem validate_smallest (p : Program) : (smallest p).validate p = .ok () := by
  unfold validate
  rw [if_neg (by simp [smallest, Block.size])]

/-- The program still fits after a scan. -/
theorem validate_congr {scratch' : Scratch} (h : scratch.validate p = .ok ())
    (hseam : scratch'.seam.size = scratch.seam.size)
    (hwindow : scratch'.window.size = scratch.window.size)
    (hblock : scratch'.block.size = scratch.block.size)
    (hties : scratch'.tieCapacity = scratch.tieCapacity) : scratch'.validate p = .ok () := by
  unfold validate at h ⊢
  rwa [hseam, hwindow, hblock, hties]

end Scratch

/-! ## Calls -/

namespace Stream

variable {s : Stream} {p : Program} {scratch : Scratch} {region data : Bytes} {isFinal : Bool}
  {policy : Policy} {status : Status} {events : Array Event}

theorem withBytes_withBytes (s : Stream) (a b : Bytes) :
    (s.withBytes a).withBytes b = s.withBytes b := rfl

theorem check_eq_ok (hheader : p.validate = .ok ()) (h : scratch.validate p = .ok ()) :
    check p scratch = .ok () := by
  unfold check
  rw [hheader, h]
  rfl

theorem scanWith_of_scans (hheader : s.program.validate = .ok ())
    (hvalid : scratch.validate s.program = .ok ())
    (h : s.program.Scans s.state.bytes data isFinal policy status events region) :
    ∃ scratch', s.scanWith scratch data isFinal policy =
        .ok (.ok (status, events), s.withBytes region, scratch') ∧
      scratch'.validate s.program = .ok () := by
  obtain ⟨buffers, hsizes, hscan⟩ := h scratch.buffers (Scratch.fit_of_validate hvalid)
  refine ⟨scratch.withBuffers buffers, ?_, ?_⟩
  · unfold scanWith
    rw [check_eq_ok hheader hvalid]
    simp only [hscan, Checked.ok_bind, Checked.pure_eq, withBytes]
  · exact Scratch.validate_congr hvalid hsizes.seam_eq hsizes.window_eq rfl rfl

/-- The calls of a stream give the outcomes of the scans, with any scratch spaces
that the program fits in. -/
theorem scanCalls_of_runs {calls : List Call} {outcomes : List (Status × Array Event)}
    (hheader : s.program.validate = .ok ())
    (hvalid : ∀ c ∈ calls, c.scratch.validate s.program = .ok ())
    (h : s.program.Runs s.state.bytes (calls.map Call.request) outcomes region) :
    ∃ results, s.scanCalls calls = .ok (results, s.withBytes region) ∧
      results.map Prod.fst = outcomes.map .ok ∧
      ∀ r ∈ results, r.2.validate s.program = .ok () := by
  induction calls generalizing s outcomes with
  | nil =>
    cases h
    exact ⟨[], rfl, rfl, fun r hr => absurd hr List.not_mem_nil⟩
  | cons c rest ih =>
    obtain _ | @⟨_, mid, _, _, _, status, events, _, outcomes, hhead, htail⟩ := h
    obtain ⟨scratch', hscan, hvalid'⟩ := scanWith_of_scans hheader
      (hvalid c List.mem_cons_self) hhead
    obtain ⟨results, hrest, hreports, hscratches⟩ := ih (s := s.withBytes mid) hheader
      (fun c' hc => hvalid c' (List.mem_cons_of_mem c hc)) htail
    refine ⟨(.ok (status, events), scratch') :: results, ?_, ?_, ?_⟩
    · unfold scanCalls scan
      rw [hscan, Checked.ok_bind]
      simp only [hrest, withBytes_withBytes, Checked.ok_bind, Checked.pure_eq]
    · rw [List.map_cons, List.map_cons, hreports]
    · intro r hr
      rcases List.mem_cons.mp hr with rfl | hr
      · exact hvalid'
      · exact hscratches r hr

/-- Reports that are outcomes are not errors. -/
theorem exists_outcome {results : List (Report × Scratch)} {outcomes : List (Status × Array Event)}
    (h : results.map Prod.fst = outcomes.map .ok) {r : Report × Scratch} (hr : r ∈ results) :
    ∃ outcome, r.1 = .ok outcome := by
  have hmem : r.1 ∈ results.map Prod.fst := List.mem_map_of_mem hr
  rw [h] at hmem
  obtain ⟨outcome, -, houtcome⟩ := List.mem_map.mp hmem
  exact ⟨outcome, houtcome.symm⟩

/-- The scans of consecutive chunks give the outcomes of the scans. -/
theorem scanEach_of_runs {chunks : List Bytes} {outcomes : List (Status × Array Event)}
    (hheader : s.program.validate = .ok ()) (hvalid : scratch.validate s.program = .ok ())
    (h : s.program.Runs s.state.bytes (chunks.map fun data => (data, policy)) outcomes region) :
    ∃ scratch', s.scanEach scratch policy chunks =
        .ok (outcomes.map .ok, s.withBytes region, scratch') ∧
      scratch'.validate s.program = .ok () := by
  induction chunks generalizing s scratch outcomes with
  | nil =>
    cases h
    exact ⟨scratch, rfl, hvalid⟩
  | cons data rest ih =>
    obtain _ | @⟨_, mid, _, _, _, status, events, _, outcomes, hhead, htail⟩ := h
    obtain ⟨scratch₁, hscan, hvalid₁⟩ := scanWith_of_scans hheader hvalid hhead
    obtain ⟨scratch', hrest, hvalid'⟩ := ih (s := s.withBytes mid) hheader hvalid₁ htail
    refine ⟨scratch', ?_, hvalid'⟩
    unfold scanEach scan
    rw [hscan, Checked.ok_bind]
    simp only [hrest, withBytes_withBytes, Checked.ok_bind, Checked.pure_eq, List.map_cons]

theorem close_of_scans (hheader : s.program.validate = .ok ())
    (hvalid : scratch.validate s.program = .ok ())
    (h : s.program.Scans s.state.bytes .empty true policy status events region) (m : Memory) :
    ∃ scratch' m', s.close scratch policy m = .ok (.ok (status, events), scratch', m') ∧
      scratch'.validate s.program = .ok () := by
  obtain ⟨scratch', hscan, hvalid'⟩ := scanWith_of_scans hheader hvalid h
  refine ⟨scratch', (s.withBytes region).release m, ?_, hvalid'⟩
  unfold close
  rw [hscan]
  rfl

/-- A stream that was opened has the first state. -/
theorem start_eq_ok {m m' : Memory} (h : start p m = (.ok s, m')) :
    s.program = p ∧ s.state.bytes = StreamState.initial p.streamSize p.checksum := by
  unfold start at h
  split at h
  · cases h
  · split at h
    · next b m₁ hrequest =>
      have hsize : b.size = p.streamSize := by
        unfold Memory.request at hrequest
        split at hrequest
        · split at hrequest
          · next hsize =>
            cases hrequest
            exact hsize
          · cases hrequest
        · cases hrequest
      cases h
      exact ⟨rfl, by rw [hsize]⟩
    · cases h

/-- A stream can be opened if its state fits in memory. -/
theorem exists_start (hheader : p.validate = .ok ()) (hsize : p.streamSize < sizeBound) :
    ∃ s m, start p { allocator := .system } = (.ok s, m) := by
  unfold start
  rw [hheader]
  simp only [Memory.request, Memory.ask, Allocator.system, if_pos hsize, Block.size, zeros_size,
    if_true]
  exact ⟨_, _, rfl⟩

/-- The calls of a stream that was opened give outcomes, and leave a state of each
stream that starts with what was scanned. -/
theorem exists_scanCalls (hp : p.Built) (hids : p.literals.size ≤ 0x100000000) {m m' : Memory}
    (hstart : start p m = (.ok s, m')) {calls : List Call}
    (hsize : (join (calls.map Call.data)).size < 0x4000000000000000)
    (hcalls : ∀ c ∈ calls, c.scratch.validate p = .ok ()) :
    ∃ region results, s.scanCalls calls = .ok (results, s.withBytes region) ∧
      (∀ r ∈ results, (∃ outcome, r.1 = .ok outcome) ∧ r.2.validate p = .ok ()) ∧
      ∀ stream, stream.size < 0x4000000000000000 → PartOf stream 0 (join (calls.map Call.data)) →
        p.StateAfter stream (join (calls.map Call.data)).size region := by
  have hsound := hp.sound hids
  have hdata := Call.map_fst_request calls
  obtain ⟨rfl, hstate⟩ := start_eq_ok hstart
  obtain ⟨outcomes, region, hruns, -⟩ :=
    (s.program.stateAfter_initial hsound _).exists_calls hsound hsize (PartOf.refl _)
  have hruns' := hruns
  rw [← hstate] at hruns'
  obtain ⟨results, hscan, hreports, hscratches⟩ := scanCalls_of_runs hp.validate hcalls hruns'
  refine ⟨region, results, hscan, fun r hr => ⟨exists_outcome hreports hr, hscratches r hr⟩,
    fun stream hlt hparts => ?_⟩
  rw [← hdata] at hparts ⊢
  exact hruns.stateAfter hsound hlt hparts

end Stream

/-- There is space for the first state of a stream in the block of a scratch space. -/
theorem Program.Sound.reset_block {p : Program} {scratch : Scratch} (hp : p.Sound)
    (hvalid : scratch.validate p = .ok ()) :
    (do StreamState.reset (← scratch.block.bytes.sliceWithin 0 p.streamSize) p.checksum) =
      .ok (StreamState.initial p.streamSize p.checksum) := by
  have hle : p.streamSize ≤ scratch.block.size := (Scratch.validate_eq_ok_iff.mp hvalid).1 .block
  have hslice : (scratch.block.bytes.slice 0 p.streamSize).size = p.streamSize :=
    size_slice_of_le (by rwa [Nat.zero_add])
  have hheader := (p.owns_initial hp).header_le hp
  rw [StreamState.size_initial] at hheader
  rw [sliceWithin_eq_ok (by rwa [Nat.zero_add]), Checked.ok_bind,
    StreamState.reset_eq (by omega), hslice]

/-- A block of data is scanned as a stream of its own. -/
theorem Program.scanBlock_of_scans {p : Program} {scratch : Scratch} {region data : Bytes}
    {policy : Policy} {status : Status} {events : Array Event} (hp : p.Sound)
    (hheader : p.validate = .ok ()) (hvalid : scratch.validate p = .ok ())
    (h : p.Scans (StreamState.initial p.streamSize p.checksum) data true policy status events
      region) :
    ∃ scratch', p.scanBlock scratch data policy = .ok (.ok (status, events), scratch') := by
  obtain ⟨buffers, hsizes, hscan⟩ := h scratch.buffers (Scratch.fit_of_validate hvalid)
  unfold Program.scanBlock
  rw [Stream.check_eq_ok hheader hvalid]
  obtain ⟨block, hblock, hreset⟩ := Checked.bind_eq_ok_iff.mp (hp.reset_block hvalid)
  simp only [hblock, hreset, hscan, Checked.ok_bind, Checked.pure_eq]
  exact ⟨_, rfl⟩

/-! ## Small programs -/

/-- What is added for the patterns `ab` and `b{1,2}`. -/
def smallAdditions : List Addition :=
  [.literals [{ bytes := .ofList [97, 98] }], .repetition (.single 98) 1 (.finite 2)]

/-- The program of the patterns `ab` and `b{1,2}`. -/
def smallProgram : Program :=
  (Draft.addEach {} smallAdditions).1.build.toOption.get (by rfl)

theorem smallProgram_built : smallProgram.Built := ⟨{}, smallAdditions, by rfl⟩

theorem smallProgram_ids : smallProgram.literals.size ≤ 0x100000000 := by decide

/-- A stream of the small program can be opened. -/
theorem smallProgram_start : ∃ s m, Stream.start smallProgram { allocator := .system } =
    (.ok s, m) :=
  Stream.exists_start smallProgram_built.validate (by decide)

/-- What is added for the `b` of `abc`, whose neighbours an automaton looks at. -/
def betweenAdditions : List Addition :=
  [.automaton Scan.between.code, .literals [{ bytes := .ofList [98], automaton := some (.ofNat 0) }]]

theorem betweenProgram_built : Scan.betweenProgram.Built := by
  refine ⟨{}, betweenAdditions, ?_⟩
  have hadd : (Draft.addEach {} betweenAdditions).1 = Scan.betweenDraft := by
    simp only [betweenAdditions, Draft.addEach, Draft.add, Draft.addAutomaton, Scan.ofCode_between]
    rfl
  rw [hadd]
  rfl

theorem betweenProgram_ids : Scan.betweenProgram.literals.size ≤ 0x100000000 := by decide

theorem betweenProgram_start : ∃ s m, Stream.start Scan.betweenProgram { allocator := .system } =
    (.ok s, m) :=
  Stream.exists_start betweenProgram_built.validate (by decide)

end StreamMatch
