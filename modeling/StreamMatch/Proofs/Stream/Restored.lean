-- A state from elsewhere, which was restored. What is checked in it is not all that a scan
-- relies on: nothing that follows fails when its repeats are coherent, too, and a scan fails
-- from some of the states whose repeats are not.
import StreamMatch.Proofs.Memory.Growing
import StreamMatch.Proofs.Program.Settings
import StreamMatch.Proofs.Scan.Overlap
import StreamMatch.Proofs.Scan.Resumable
import StreamMatch.Proofs.Stream.Completed
import StreamMatch.Proofs.Stream.Saved

namespace StreamMatch

open Bytes Checked

/-- The program still fits in a scratch space with other buffers that are large enough. -/
theorem Scratch.validate_withBuffers {scratch : Scratch} {p : Program} {b : Buffers}
    (h : scratch.validate p = .ok ()) (hfit : b.Fit p) :
    (scratch.withBuffers b).validate p = .ok () := by
  obtain ⟨hparts, hties⟩ := validate_eq_ok_iff.mp h
  refine validate_eq_ok_iff.mpr ⟨fun part => ?_, hties⟩
  cases part with
  | seam => exact hfit.seam_le
  | window => exact hfit.window_le
  | block => exact hparts .block

theorem Program.Built.rankOf_lt {p : Program} (h : p.Built)
    (hids : p.literals.size ≤ 0x100000000) :
    ∀ r ∈ p.repeats, ∀ b, r.rankOf b < 0x100000000 := by
  obtain ⟨settings, additions, hbuild⟩ := h
  exact Draft.rankOf_lt_of_build hbuild hids

/-! ## Calls -/

namespace Stream

variable {p : Program} {s s' : Stream} {scratch : Scratch} {data bytes : Bytes} {n : Nat}
  {calls : List Call}

/-- A stream of a program, of which `n` bytes were scanned. Nothing that follows fails. -/
structure ResumesAt (s : Stream) (p : Program) (n : Nat) : Prop where
  program_eq : s.program = p
  resumable : p.Resumable n s.state.bytes

/-- A scan is completed, and gives back a scratch space that the program fits in. -/
def Completes (p : Program) (r : Report × Scratch) : Prop :=
  r.1.IsCompleted ∧ r.2.validate p = .ok ()

theorem scanWith_completes (hp : p.Built) (hids : p.literals.size ≤ 0x100000000)
    (h : s.ResumesAt p n) (hvalid : scratch.validate p = .ok ())
    (hlt : n + data.size < 0x4000000000000000) (isFinal : Bool) :
    Succeeds (fun o => Completes p (o.1, o.2.2) ∧
        (isFinal = false → o.2.1.ResumesAt p (n + data.size)))
      (s.scanWith scratch data isFinal .always) := by
  obtain ⟨rfl, states, entries, hstate⟩ := h
  unfold scanWith
  rw [check_eq_ok hp.validate hvalid]
  refine (hstate.scanChunk_proceeds (hp.sound hids) (hp.rankOf_lt hids) hlt isFinal
    (Scratch.fit_of_validate hvalid)).bind ?_
  rintro ⟨report, region, buffers⟩ ⟨hcompleted, hfit, hresumable⟩
  exact .of_ok ⟨⟨hcompleted, Scratch.validate_withBuffers hvalid hfit⟩,
    fun hfinal => ⟨rfl, hresumable hfinal⟩⟩

/-- The calls that follow are completed, and leave a stream that goes on. -/
theorem scanCalls_complete (hp : p.Built) (hids : p.literals.size ≤ 0x100000000)
    (h : s.ResumesAt p n)
    (hcalls : ∀ c ∈ calls, c.policy = .always ∧ c.scratch.validate p = .ok ())
    (hlt : n + (join (calls.map Call.data)).size < 0x4000000000000000) :
    Succeeds (fun o => (∀ r ∈ o.1, Completes p r) ∧
        o.2.ResumesAt p (n + (join (calls.map Call.data)).size)) (s.scanCalls calls) := by
  induction calls generalizing s n with
  | nil => exact .of_ok ⟨fun r hr => absurd hr List.not_mem_nil, h⟩
  | cons c rest ih =>
    obtain ⟨hpolicy, hvalid⟩ := hcalls c List.mem_cons_self
    rw [List.map_cons, join, ByteArray.size_append] at hlt ⊢
    unfold scanCalls scan
    rw [hpolicy]
    refine (scanWith_completes hp hids h hvalid (by omega) false).bind ?_
    rintro ⟨report, s', scratch'⟩ ⟨hcompletes, hresumes⟩
    have hrest : ∀ c' ∈ rest, c'.policy = .always ∧ c'.scratch.validate p = .ok () :=
      fun c' hc => hcalls c' (List.mem_cons_of_mem c hc)
    refine (ih (hresumes rfl) hrest (by omega)).bind ?_
    rintro ⟨results, last⟩ ⟨hresults, hlast⟩
    rw [Nat.add_assoc] at hlast
    refine .of_ok ⟨fun r hr => ?_, hlast⟩
    rcases List.mem_cons.mp hr with rfl | hr
    · exact hcompletes
    · exact hresults r hr

theorem close_completes (hp : p.Built) (hids : p.literals.size ≤ 0x100000000)
    (h : s.ResumesAt p n) (hvalid : scratch.validate p = .ok ()) (hlt : n < 0x4000000000000000)
    (m : Memory) :
    Succeeds (fun o => Completes p (o.1, o.2.1)) (s.close scratch .always m) := by
  have hsame : n + ByteArray.empty.size < 0x4000000000000000 := hlt
  refine (scanWith_completes hp hids h hvalid hsame true).bind ?_
  rintro ⟨report, s', scratch'⟩ ⟨hcompletes, -⟩
  exact .of_ok hcompletes

/-! ## Restored states -/

/-- A stream that was opened goes on from its first byte. -/
theorem resumesAt_of_start (hp : p.Sound) {m m' : Memory} (hstart : start p m = (.ok s, m')) :
    s.ResumesAt p 0 := by
  obtain ⟨rfl, hstate⟩ := start_eq_ok hstart
  have hresumes := (Program.ready_initial hp .empty).resumes
  rw [← hstate] at hresumes
  exact ⟨rfl, _, _, hresumes⟩

/-- The state of a stream that goes on can be restored, and its repeats are coherent. -/
theorem ResumesAt.restored (hp : p.Sound) (h : s.ResumesAt p n) (hlt : n < 0x4000000000000000)
    {other : Stream} (hprogram : other.program = p) (hsize : other.state.size = p.streamSize) :
    ∃ restored, other.restore s.state.bytes = (.ok (), restored) ∧ restored.offset = .ok n ∧
      restored.isTerminated = .ok false ∧
      ∀ r ∈ p.repeats, (p.layout.place r).Coherent s.state.bytes := by
  obtain ⟨-, states, entries, hresumes⟩ := h
  have hle := hresumes.owns.header_le hp
  have hvalid := (hresumes.accepted hp hlt).validate hp
  rw [← hprogram] at hvalid
  refine ⟨other.withBytes s.state.bytes,
    restore_eq_ok (hresumes.owns.size_eq.trans hsize.symm) hvalid, ?_,
    hresumes.owns.isTerminated_eq hp, fun r hr => hresumes.coherent hp hr⟩
  rw [← hresumes.offset_eq]
  exact StreamState.offset_eq (show 32 ≤ s.state.bytes.size by omega)

/-- A state that was restored goes on if its repeats are coherent. -/
theorem resumesAt_of_restore (hp : p.Sound) (hprogram : s.program = p)
    (hrestore : s.restore bytes = (.ok (), s')) (hoffset : s'.offset = .ok n)
    (hlt : n < 0x4000000000000000) (hrunning : s'.isTerminated = .ok false)
    (hcoherent : ∀ r ∈ p.repeats, (p.layout.place r).Coherent bytes) : s'.ResumesAt p n := by
  obtain ⟨-, rfl, hvalid⟩ := of_restore_eq_ok hrestore
  subst hprogram
  have haccepted := (Program.accepted_iff hp).mpr ⟨hvalid, hrunning⟩
  have hle := haccepted.owns.header_le hp
  have hread : (s.withBytes bytes).offset = .ok (StreamState.offsetOf bytes) :=
    StreamState.offset_eq (show 32 ≤ bytes.size by omega)
  obtain rfl : StreamState.offsetOf bytes = n := by
    rw [hread] at hoffset
    exact Except.ok.inj hoffset
  exact ⟨rfl, haccepted.resumable hp hlt hcoherent⟩

/-- Nothing fails after a state was restored in which no match is pending while a run is
open or after the last run, and in which the runs are counted right. All that follows is
completed. -/
theorem restored_completes (hp : p.Built) (hids : p.literals.size ≤ 0x100000000)
    (hprogram : s.program = p) (hrestore : s.restore bytes = (.ok (), s'))
    (hoffset : s'.offset = .ok n) (hrunning : s'.isTerminated = .ok false)
    (hcoherent : ∀ r ∈ p.repeats, (p.layout.place r).Coherent bytes)
    (hcalls : ∀ c ∈ calls, c.policy = .always ∧ c.scratch.validate p = .ok ())
    (hlt : n + (join (calls.map Call.data)).size < 0x4000000000000000) :
    Succeeds (fun o => (∀ r ∈ o.1, Completes p r) ∧
        ∀ scratch m, scratch.validate p = .ok () →
          Succeeds (fun c => Completes p (c.1, c.2.1)) (o.2.close scratch .always m))
      (s'.scanCalls calls) := by
  have hresumes := resumesAt_of_restore (hp.sound hids) hprogram hrestore hoffset (by omega)
    hrunning hcoherent
  refine (scanCalls_complete hp hids hresumes hcalls hlt).mono ?_
  rintro ⟨results, last⟩ ⟨hresults, hlast⟩
  exact ⟨hresults, fun scratch m hscratch => close_completes hp hids hlast hscratch hlt m⟩

end Stream

/-- The state of a stream of the small program after `ab`, in which a run is open, is restored
to the stream, and `b` follows. -/
theorem smallProgram_restored_completes : ∃ s m,
    Stream.start smallProgram { allocator := .system } = (.ok s, m) ∧
    ∃ results saved restored,
      s.scanCalls [⟨.smallest smallProgram, .ofList [97, 98], .always⟩] = .ok (results, saved) ∧
      s.restore saved.state.bytes = (.ok (), restored) ∧
      Succeeds (fun o => (∀ r ∈ o.1, Stream.Completes smallProgram r) ∧
          ∀ scratch m, scratch.validate smallProgram = .ok () →
            Succeeds (fun c => Stream.Completes smallProgram (c.1, c.2.1))
              (o.2.close scratch .always m))
        (restored.scanCalls [⟨.smallest smallProgram, .ofList [98], .always⟩]) := by
  have hsound := smallProgram_built.sound smallProgram_ids
  obtain ⟨s, m, hstart⟩ := smallProgram_start
  obtain ⟨hprogram, hstate⟩ := Stream.start_eq_ok hstart
  have hcalls : ∀ c ∈ ([⟨.smallest smallProgram, .ofList [97, 98], .always⟩] : List Call),
      c.policy = .always ∧ c.scratch.validate smallProgram = .ok () := by
    simp [Scratch.validate_smallest]
  obtain ⟨⟨results, saved⟩, hscan, -, hsaved⟩ := Stream.scanCalls_complete smallProgram_built
    smallProgram_ids (Stream.resumesAt_of_start hsound hstart) hcalls (by decide)
  have hsize : s.state.size = smallProgram.streamSize := by
    unfold Block.size
    rw [hstate, StreamState.size_initial]
  obtain ⟨restored, hrestore, hoffset, hrunning, hcoherent⟩ :=
    hsaved.restored hsound (by decide) hprogram hsize
  exact ⟨s, m, hstart, results, saved, restored, hscan, hrestore,
    Stream.restored_completes smallProgram_built smallProgram_ids hprogram hrestore hoffset
      hrunning hcoherent (by simp [Scratch.validate_smallest]) (by decide)⟩

/-! ## States that are restored and fail -/

namespace Stream

variable {p : Program} {s : Stream} {scratch : Scratch} {n : Nat} {r : Repeat}

/-- A stream with an overlap fails when the run ends where the chunk starts. -/
theorem scanWith_fails (hp : p.Built) (hids : p.literals.size ≤ 0x100000000)
    (hprogram : s.program = p) (h : p.Accepted n s.state.bytes) (hr : r ∈ p.repeats)
    (hoverlap : p.Overlapping s.state.bytes s.state.bytes r)
    (hvalid : scratch.validate p = .ok ()) (data : Bytes)
    (hlt : n + data.size < 0x4000000000000000)
    (hout : 0 < data.size → r.allowed.contains (byteAt data 0) = false) {isFinal : Bool}
    (hfinal : data.size = 0 → isFinal = true) (policy : Policy) :
    Fails (s.scanWith scratch data isFinal policy) := by
  subst hprogram
  unfold scanWith
  rw [check_eq_ok hp.validate hvalid]
  exact (h.scanChunk_fails (hp.sound hids) (hp.rankOf_lt hids) hr hoverlap hlt hout hfinal policy
    (Scratch.fit_of_validate hvalid)).bind _

/-- For each repeat of a program and each length within its bounds there are bytes that are
restored, although the stream that goes on from them can neither be closed nor scan a byte
that the repeat does not allow. -/
theorem restored_fails (hp : p.Built) (hids : p.literals.size ≤ 0x100000000)
    (hprogram : s.program = p) (hsize : s.state.size = p.streamSize) (hr : r ∈ p.repeats)
    (hpos : 0 < n) (ha : r.accepts n = true) (hlt : n < 0x4000000000000000) :
    ∃ bytes restored, s.restore bytes = (.ok (), restored) ∧ restored.offset = .ok n ∧
      restored.isTerminated = .ok false ∧
      ∀ scratch policy, scratch.validate p = .ok () →
        (∀ m, Fails (restored.close scratch policy m)) ∧
        ∀ data : Bytes, 0 < data.size → n + data.size < 0x4000000000000000 →
          r.allowed.contains (byteAt data 0) = false →
          Fails (restored.scan scratch data policy) := by
  have hsound := hp.sound hids
  obtain ⟨region, haccepted, hoverlap⟩ := Program.exists_overlapping hsound hr hpos ha hlt
  have hvalid := haccepted.validate hsound
  have hle := haccepted.owns.header_le hsound
  rw [← hprogram] at hvalid
  refine ⟨region, s.withBytes region,
    restore_eq_ok (haccepted.owns.size_eq.trans hsize.symm) hvalid, ?_,
    haccepted.owns.isTerminated_eq hsound, fun scratch policy hscratch => ⟨fun m => ?_, ?_⟩⟩
  · rw [← haccepted.offset_eq]
    exact StreamState.offset_eq (show 32 ≤ region.size by omega)
  · have hclose : Fails ((s.withBytes region).scanWith scratch .empty true policy) :=
      scanWith_fails (s := s.withBytes region) hp hids hprogram haccepted hr hoverlap hscratch
        .empty hlt (fun hempty => absurd hempty (Nat.lt_irrefl 0)) (fun _ => rfl) policy
    exact hclose.bind _
  · intro data hdata hbound hout
    exact scanWith_fails (s := s.withBytes region) hp hids hprogram haccepted hr hoverlap hscratch
      data hbound (fun _ => hout) (fun hzero => absurd hzero (Nat.ne_of_gt hdata)) policy

end Stream

end StreamMatch
