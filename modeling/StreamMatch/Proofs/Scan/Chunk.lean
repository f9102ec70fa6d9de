-- The scan of a whole chunk: from a state that a stream can be in, it leads to
-- another such state, or to that of a stream that was stopped.
import StreamMatch.Proofs.Scan.Search
import StreamMatch.Proofs.State.Ready

namespace StreamMatch

open Bytes

/-- The buffers are large enough for a program. -/
structure Buffers.Fit (b : Buffers) (p : Program) : Prop where
  seam_le : p.seamSize ≤ b.seam.size
  window_le : p.windowSize ≤ b.window.size
  ties_le : p.literals.size ≤ b.tieCapacity

/-- Two buffers have the same sizes. -/
structure Buffers.SameSizes (a b : Buffers) : Prop where
  seam_eq : b.seam.size = a.seam.size
  window_eq : b.window.size = a.window.size
  ties_eq : b.tieCapacity = a.tieCapacity

namespace Program

/-- The scan of a chunk gives the same report and the same state with any buffers
that are large enough. -/
def Scans (p : Program) (region data : Bytes) (isFinal : Bool) (policy : Policy) (status : Status)
    (events : Array Event) (region' : Bytes) : Prop :=
  ∀ buffers : Buffers, buffers.Fit p → ∃ buffers', buffers.SameSizes buffers' ∧
    p.scanChunk region buffers data isFinal policy =
      .ok ⟨.ok (status, events), region', buffers'⟩

/-- The state of a stream after `n` bytes, which gave the events `past`. -/
def Awaits (p : Program) (stream : Bytes) (n : Nat) (past : List Event) (region : Bytes) : Prop :=
  ∃ resume reported states, p.Ready stream n past region resume reported states

/-- What the scan of a chunk leaves when `n` bytes were scanned. -/
def Leaves (p : Program) (stream : Bytes) (n : Nat) (past : List Event) (isFinal : Bool)
    (policy : Policy) (events : List Event) (region : Bytes) : Status → Prop
  | .completed => policy.Allows events ∧
      if isFinal then past ++ events = p.eventsOf (p.rawMatches stream)
      else p.Awaits stream n (past ++ events) region
  | .terminated => p.Owns region 1 ∧ policy.Answers events .stop ∧
      ∃ reported, reported <+: p.rawMatches stream ∧ past ++ events = p.eventsOf reported

end Program

namespace Program.Owns

variable {p : Program} {a b : Bytes} {flags flags' : Nat}

/-- The fields of a fixed size that belong to the program stay. -/
theorem of_same (h : p.Owns a flags) (hsize : b.size = a.size) (hle : 8 ≤ a.size)
    (hsame : ∀ i, i < 8 → byteAt b i = byteAt a i) (hflags : b.readNumber 28 1 = flags') :
    p.Owns b flags' := by
  have hmagic : b.slice 0 4 = a.slice 0 4 := by
    apply ext_byteAt
    · rw [size_slice_of_le (by omega), size_slice_of_le (by omega)]
    · intro i hi
      rw [size_slice_of_le (by omega)] at hi
      rw [byteAt_slice hi (by omega), byteAt_slice hi (by omega)]
      exact hsame (0 + i) (by omega)
  refine ⟨hsize.trans h.size_eq, ?_, ?_, hflags⟩
  · rw [hmagic, h.magic_eq]
  · rw [← h.checksum_eq]
    exact readNumber_congr fun i hi => hsame (4 + i) (by omega)

theorem of_sameHeader (h : p.Owns a flags) (hle : 8 ≤ a.size) (hs : p.SameHeader a b) :
    p.Owns b flags := by
  refine h.of_same hs.size_eq hle (fun i hi => hs.same i (by omega)) ?_
  rw [← h.flags_eq]
  exact hs.readNumber_eq (by omega)

theorem of_agree (h : p.Owns a flags) (hle : 8 ≤ a.size) {pos len : Nat}
    (hs : AgreeOutside pos len a b) (hpos : 8 ≤ pos) (hrange : pos + len ≤ 28 ∨ 29 ≤ pos) :
    p.Owns b flags := by
  refine h.of_same hs.size_eq hle (fun i hi => hs.same i (by omega)) ?_
  rw [← h.flags_eq]
  exact hs.readNumber_eq (by omega)

end Program.Owns

namespace Scan

variable {s : Scan} {stream base : Bytes} {resume : Key} {past : List Event} {c : Core}
  {reported : List RawMatch} {states : Repeat → RunState} {n : Nat}

/-! ## The state after the chunk -/

theorem closeChunk_stop (hp : s.program.Sound) (howns : s.program.Owns base 0)
    (h : s.Halted stream base past c) :
    ∃ region, s.closeChunk c.region .stop = .ok (.terminated, region) ∧
      s.program.Leaves stream n past s.isFinal s.policy c.events.toList region .terminated := by
  have hle := howns.header_le hp
  have hmid := howns.of_sameHeader (by omega) h.same
  have hsize := hmid.size_eq
  rw [howns.size_eq] at hle
  obtain ⟨region, hset, hagree, hflags⟩ :=
    StreamState.setTerminated_spec (show 32 ≤ c.region.size by omega)
  obtain ⟨reported, hpre, htells⟩ := h.told
  refine ⟨region, ?_, ?_, htells.answers, reported, hpre, htells.events_eq⟩
  · unfold closeChunk
    rw [hset]
    rfl
  · refine hmid.of_same hagree.size_eq (by omega) (fun i hi => hagree.same i (by omega)) ?_
    rw [hflags, hmid.flags_eq]

/-- The history and the offset can be written. -/
theorem closeChunk_proceed (hs : s.Over stream resume) {last : Bytes}
    (hsize : last.size = s.program.layout.size) :
    ∃ mid region, s.closeChunk last .proceed = .ok (.completed, region) ∧
      AgreeOutside 30 (2 + s.program.layout.historySize) last mid ∧
      mid.readNumber 30 2 = min s.program.layout.historySize
        (s.input.history.size + s.input.data.size) ∧
      StreamState.historyOf mid =
        StreamState.keptHistory s.program.layout.historySize s.input.history s.input.data ∧
      AgreeOutside 8 8 mid region ∧ StreamState.offsetOf region = s.input.stop := by
  have hbound : Word.bound = 0x10000000000000000 := rfl
  have hlt := hs.size_lt
  have hstop := hs.stop_le
  have hpatterns := hs.sound.layout.patterns_le
  unfold Layout.patternAt Layout.historyAt at hpatterns
  obtain ⟨mid, hhistory, hagree, hlength, hkept⟩ :=
    StreamState.setHistory_spec s.input.history s.input.data hs.sound.layout.historySize_le
      (show 32 + s.program.layout.historySize ≤ last.size by omega)
  have hmid := hagree.size_eq
  obtain ⟨region, hoffset, hagree', hstop'⟩ :=
    StreamState.setOffset_spec (show 32 ≤ mid.size by omega)
      (show s.input.stop < Word.bound by omega)
  refine ⟨mid, region, ?_, hagree, hlength, hkept, hagree', hstop'⟩
  unfold closeChunk
  simp only [hhistory, Checked.ok_bind, hs.chunkEnd_eq, hoffset, Checked.pure_eq]

/-- The chunk becomes a part of the history, and nothing else is changed. -/
theorem closeChunk_paused (hs : s.Over stream resume) (howns : s.program.Owns base 0)
    (hhistory : s.input.history.size = min s.program.historySize s.input.chunkStart)
    {mid last : Bytes} {entries : Nat → PatternEntry} (hsame : s.program.SameHeader base last)
    (hkeeps : s.program.Keeps mid last states entries) :
    ∃ region, s.closeChunk last .proceed = .ok (.completed, region) ∧
      s.program.Paused s.input.stop region ∧
      PartOf stream (s.input.stop - min s.program.layout.historySize s.input.stop)
        (StreamState.historyOf region) ∧
      StreamState.resumeOf region = StreamState.resumeOf last ∧
      s.program.Keeps region region states entries := by
  have hle := howns.header_le hs.sound
  have hfloor := s.input.floor_add
  have hmid := howns.of_sameHeader (by omega) hsame
  obtain ⟨mid, region, hclose, hagree, hlength, hkept, hagree', hoffset⟩ :=
    closeChunk_proceed hs hkeeps.size_eq
  have hsize := hmid.size_eq
  have hsize' := hagree.size_eq
  rw [howns.size_eq] at hle
  have hstop : s.input.stop = s.input.chunkStart + s.input.data.size := rfl
  unfold Program.historySize at hhistory
  have hlength' : region.readNumber 30 2 = min s.program.layout.historySize s.input.stop := by
    rw [hagree'.readNumber_eq (by omega), hlength]
    omega
  refine ⟨region, hclose, ⟨?_, hoffset, hlength'⟩, ?_, ?_, ?_⟩
  · exact (hmid.of_agree (by omega) hagree (by omega) (by omega)).of_agree (by omega) hagree'
      (by omega) (by omega)
  · have hsame : StreamState.historyOf region = StreamState.historyOf mid := by
      unfold StreamState.historyOf
      rw [hagree'.readNumber_eq (by omega), hlength, hagree'.slice_eq (by omega) (by omega)]
    have hpart := StreamState.partOf_keptHistory s.program.layout.historySize hs.shows.history
      (by rw [hfloor]; exact hs.shows.data)
    rw [hsame, hkept]
    rwa [hfloor, show s.input.chunkStart + s.input.data.size -
      min s.program.layout.historySize (s.input.history.size + s.input.data.size) =
        s.input.stop - min s.program.layout.historySize s.input.stop by omega] at hpart
  · unfold StreamState.resumeOf
    rw [hagree'.readNumber_eq (by omega), hagree'.readNumber_eq (by omega),
      hagree.readNumber_eq (by omega), hagree.readNumber_eq (by omega)]
  · exact (hkeeps.rebase hs.sound hagree (by omega)).rebase hs.sound hagree' (by omega)

/-- The state after the chunk is one that a stream can be in. -/
theorem Continues.ready (hs : s.Over stream resume) (howns : s.program.Owns base 0)
    (hhistory : s.input.history.size = min s.program.historySize s.input.chunkStart)
    (hfinal : s.isFinal = false) {upto : Key}
    (h : s.Continues stream base past c upto reported states) :
    ∃ region, s.closeChunk c.region .proceed = .ok (.completed, region) ∧
      s.program.Ready stream s.input.stop (past ++ c.events.toList) region upto reported
        states := by
  obtain ⟨region, hclose, hpaused, hpart, hresume, hkeeps⟩ :=
    closeChunk_paused hs howns hhistory h.same h.point.keeps
  have hfound := h.point.found
  rw [hfinal] at hfound
  exact ⟨region, hclose, hs.stop_le, hpaused.owns, hpaused.offset_eq, hresume.trans h.resume_eq,
    hpaused.historyLength_eq, hpart, h.resume_le, h.stop_lt, hkeeps, hfound, h.waits,
    h.point.ordered, h.point.below, h.point.literals, h.point.tells.events_eq⟩

/-- What a scan of a chunk found is written to the state. -/
theorem closeChunk_spec (hs : s.Over stream resume) (howns : s.program.Owns base 0)
    (hhistory : s.input.history.size = min s.program.historySize s.input.chunkStart) {a : Action}
    (h : s.Finishes stream base past c a) :
    ∃ status region, s.closeChunk c.region a = .ok (status, region) ∧
      s.program.Leaves stream s.input.stop past s.isFinal s.policy c.events.toList region
        status := by
  cases a with
  | stop =>
    obtain ⟨region, hclose, hleaves⟩ := closeChunk_stop hs.sound howns h
    exact ⟨.terminated, region, hclose, hleaves⟩
  | proceed =>
    unfold Finishes at h
    cases hfinal : s.isFinal with
    | true =>
      rw [hfinal, if_pos rfl] at h
      obtain ⟨-, hsize, htells⟩ := h
      obtain ⟨-, region, hclose, -⟩ := closeChunk_proceed hs hsize
      exact ⟨.completed, region, hclose, htells.answers, htells.events_eq⟩
    | false =>
      rw [hfinal, if_neg Bool.false_ne_true] at h
      obtain ⟨upto, reported, states, hcontinues⟩ := h
      obtain ⟨region, hclose, hready⟩ := hcontinues.ready hs howns hhistory hfinal
      exact ⟨.completed, region, hclose, hcontinues.point.tells.answers, upto, reported, states,
        hready⟩

end Scan

/-! ## Chunks -/

namespace Program

/-- The scan of a chunk that follows a history. -/
def scanOf (p : Program) (input : Input) (isFinal : Bool) (policy : Policy) : Scan :=
  ⟨p, input, p.repeats.toList.map p.layout.place, isFinal, policy⟩

variable {p : Program} {stream region data : Bytes} {n : Nat} {past : List Event} {resume : Key}
  {reported : List RawMatch} {states : Repeat → RunState} {isFinal : Bool} {policy : Policy}

theorem size_literalBytes_le (hp : p.Sound) : ∀ bytes ∈ p.literalBytes, bytes.size ≤ p.longest := by
  intro bytes hbytes
  obtain ⟨l, hl, rfl⟩ := List.mem_map.mp hbytes
  exact hp.size_le l (Array.mem_toList_iff.mp hl)

namespace Paused

theorem size_history (hp : p.Sound) (h : p.Paused n region) :
    (StreamState.historyOf region).size = min p.historySize n := by
  have hle := h.owns.header_le hp
  unfold StreamState.historyOf
  rw [h.historyLength_eq, size_slice_of_le (by omega)]
  rfl

theorem history_le (hp : p.Sound) (h : p.Paused n region) :
    (StreamState.historyOf region).size ≤ n := by
  rw [h.size_history hp]
  exact Nat.min_le_right _ _

theorem history_eq (hp : p.Sound) (h : p.Paused n region) :
    StreamState.history region = .ok (StreamState.historyOf region) := by
  have hle := h.owns.header_le hp
  exact StreamState.history_eq (by rw [h.historyLength_eq]; omega)

/-- What the scan of the next chunk can see. -/
def inputOf (hp : p.Sound) (h : p.Paused n region) (data : Bytes) : Input :=
  ⟨StreamState.historyOf region, data, n, h.history_le hp⟩

/-- The input starts where the history does. -/
theorem floor_inputOf (hp : p.Sound) (h : p.Paused n region) (data : Bytes) :
    (h.inputOf hp data).floor = n - min p.layout.historySize n := by
  have hhistory := h.size_history hp
  unfold historySize at hhistory
  unfold Input.floor inputOf
  simp only [hhistory]

/-- The literals of the chunk are searched for in the right bytes. -/
theorem shows (hp : p.Sound) (hsize : stream.size < 0x4000000000000000) (h : p.Paused n region)
    (hshows : (h.inputOf hp data).Shows stream) :
    (Searched.ofChunk p.longest (StreamState.historyOf region) data n).Shows stream p.longest :=
  Searched.shows_ofChunk (h.history_le hp) hshows.history hshows.data
    (Nat.lt_trans hsize (by decide))

/-- The groups of candidates that a scan visits. -/
theorem groups_eq (hp : p.Sound) (hsize : stream.size < 0x4000000000000000) (h : p.Paused n region)
    (hshows : (h.inputOf hp data).Shows stream) (first : Nat) :
    (Searched.ofChunk p.longest (StreamState.historyOf region) data n).groups p.table first =
      .ok (((Searched.ofChunk p.longest (StreamState.historyOf region) data n).candidateGroups
        p.table first).map .ok) := by
  rw [hp.table_eq]
  exact Searched.groups_eq hp.searchable (size_literalBytes_le hp) (h.shows hp hsize hshows)

theorem trackers_eq (hp : p.Sound) (h : p.Paused n region) :
    (p.repeats.toList.mapM fun r => p.layout.tracker r region) =
      .ok (p.repeats.toList.map p.layout.place) :=
  Checked.mapM_eq_ok fun _ hr =>
    Layout.tracker_eq_place hp.layout (Array.mem_toList_iff.mp hr) h.owns.size_eq

/-- The point from which a chunk is searched. -/
def coreFrom (_ : p.Paused n region) (states : Repeat → RunState) : Core :=
  ⟨region, ⟨p.repeats.toList.countP fun r => (states r).pending.isSome, .first⟩, .scanning, #[]⟩

/-- The history is read back from the seam. -/
theorem prepare_eq (hp : p.Sound) (hsize : stream.size < 0x4000000000000000)
    (h : p.Paused n region) (hshows : (h.inputOf hp data).Shows stream)
    (htracks : ∀ r ∈ p.repeats, (p.layout.place r).Tracks region (states r))
    (isFinal : Bool) (policy : Policy) {buffers : Buffers} (hfit : buffers.Fit p) :
    ∃ seam, seam.size = buffers.seam.size ∧
      p.prepare region buffers data isFinal policy =
        .ok ⟨p.scanOf (h.inputOf hp data) isFinal policy,
          (h.coreFrom states).on buffers.window buffers.ties, StreamState.resumeOf region,
          ((Searched.ofChunk p.longest (StreamState.historyOf region) data n).candidateGroups
            p.table (StreamState.resumeOf region).endsAt).map .ok, seam⟩ := by
  obtain ⟨seamBuffer, window, ties, tieCapacity⟩ := buffers
  obtain ⟨hseam, hwindow, hties⟩ := hfit
  simp only at hseam hties
  have hle := h.owns.header_le hp
  have hhistory := h.size_history hp
  have hstart : (data.slice 0 p.seamTail).size ≤ p.seamTail := by
    rw [size_slice]
    omega
  have hfits : 0 + (StreamState.historyOf region ++ data.slice 0 p.seamTail).size ≤
      seamBuffer.size := by
    unfold Program.seamSize at hseam
    rw [ByteArray.size_append]
    omega
  have hlength := h.historyLength_eq
  have hread : slice (StreamState.historyOf region ++ data.slice 0 p.seamTail) 0
      (StreamState.historyOf region).size = StreamState.historyOf region := by
    refine (slice_eq_iff (by rw [ByteArray.size_append]; omega)).mpr fun i hi => ?_
    rw [Nat.zero_add, byteAt_append_left hi]
  have hsearched := slice_overwrite seamBuffer _ 0 hfits
  rw [ByteArray.size_append] at hsearched
  have htable : p.table.size ≤ tieCapacity := by
    rw [hp.table_eq, LiteralTable.size_ofLiterals, Program.Sound.size_literalBytes]
    exact hties
  have hmake : Input.make (StreamState.historyOf region) data n = .ok (h.inputOf hp data) :=
    dif_pos (h.history_le hp)
  refine ⟨seamBuffer.overwrite 0 (StreamState.historyOf region ++ data.slice 0 p.seamTail),
    (agreeOutside_overwrite _ _ 0 hfits).size_eq, ?_⟩
  have hresume := StreamState.resume_eq (show 32 ≤ region.size by omega)
  have hoffset : StreamState.offset region = .ok n := by
    rw [StreamState.offset_eq (by omega), h.offset_eq]
  have hpending := Scan.countPending_eq fun r hr => htracks r (Array.mem_toList_iff.mp hr)
  have hgroups := h.groups_eq hp hsize hshows (StreamState.resumeOf region).endsAt
  unfold Searched.ofChunk at hgroups
  unfold prepare
  simp only [h.history_eq hp, hresume, hoffset, h.trackers_eq hp, hpending, hmake,
    Checked.ok_bind, overwriteWithin_eq_ok hfits, hsearched, hread, decide_eq_true htable,
    Checked.require_true]
  unfold Program.seamTail
  rw [hgroups]
  rfl

/-- The chunk is prepared, and then it is searched. -/
theorem scanChunk_eq (hp : p.Sound) (hsize : stream.size < 0x4000000000000000)
    (h : p.Paused n region) (hshows : (h.inputOf hp data).Shows stream)
    (hvalid : StreamState.validate p.layout p.repeats p.checksum region = .ok ())
    (htracks : ∀ r ∈ p.repeats, (p.layout.place r).Tracks region (states r))
    (isFinal : Bool) (policy : Policy) {buffers : Buffers} (hfit : buffers.Fit p) :
    ∃ seam, seam.size = buffers.seam.size ∧
      p.scanChunk region buffers data isFinal policy = (do
        let (pr, action) ← (p.scanOf (h.inputOf hp data) isFinal policy).search
          ((h.coreFrom states).on buffers.window buffers.ties) (StreamState.resumeOf region)
          (((Searched.ofChunk p.longest (StreamState.historyOf region) data n).candidateGroups
            p.table (StreamState.resumeOf region).endsAt).map .ok)
        let (status, region) ← (p.scanOf (h.inputOf hp data) isFinal policy).closeChunk
          pr.region action
        return ⟨.ok (status, pr.events), region, ⟨seam, pr.window, pr.ties, buffers.tieCapacity⟩⟩)
    := by
  obtain ⟨seam, hseam, hprepare⟩ := h.prepare_eq hp hsize hshows htracks isFinal policy hfit
  have hrunning : StreamState.isTerminated region = .ok false := h.owns.isTerminated_eq hp
  refine ⟨seam, hseam, ?_⟩
  unfold scanChunk
  rw [StreamState.validateWithin_eq hp.layout, hvalid]
  simp only [hrunning, hprepare, Checked.ok_bind, Bool.false_eq_true, if_false]

end Paused

namespace Ready

theorem size_history (hp : p.Sound) (h : p.Ready stream n past region resume reported states) :
    (StreamState.historyOf region).size = min p.historySize n :=
  h.paused.size_history hp

theorem history_le (hp : p.Sound) (h : p.Ready stream n past region resume reported states) :
    (StreamState.historyOf region).size ≤ n :=
  h.paused.history_le hp

theorem history_eq (hp : p.Sound) (h : p.Ready stream n past region resume reported states) :
    StreamState.history region = .ok (StreamState.historyOf region) :=
  h.paused.history_eq hp

/-- What the scan of the next chunk can see. -/
def inputOf (hp : p.Sound) (h : p.Ready stream n past region resume reported states)
    (data : Bytes) : Input :=
  ⟨StreamState.historyOf region, data, n, h.history_le hp⟩

theorem input_shows (hp : p.Sound)
    (h : p.Ready stream n past region resume reported states) (hdata : PartOf stream n data) :
    (h.paused.inputOf hp data).Shows stream :=
  ⟨by rw [h.paused.floor_inputOf]; exact h.history, hdata⟩

theorem scanOf_over (hp : p.Sound) (hsize : stream.size < 0x4000000000000000)
    (h : p.Ready stream n past region resume reported states) (hdata : PartOf stream n data)
    (hfinal : isFinal = true → n + data.size = stream.size) (policy : Policy) :
    (p.scanOf (h.inputOf hp data) isFinal policy).Over stream resume := by
  have hhistory := h.size_history hp
  have hfloor : n - (StreamState.historyOf region).size = n - p.historySize := by omega
  exact ⟨hp, h.input_shows hp hdata, hsize, rfl, hfinal, hfloor, h.resume_le, h.le_resume⟩

/-- The literals of the chunk are searched for in the right bytes. -/
theorem shows (hp : p.Sound) (hsize : stream.size < 0x4000000000000000)
    (h : p.Ready stream n past region resume reported states) (hdata : PartOf stream n data) :
    (Searched.ofChunk p.longest (StreamState.historyOf region) data n).Shows stream p.longest :=
  h.paused.shows hp hsize (h.input_shows hp hdata)

/-- The candidates that are found are those that were not processed yet. -/
theorem remains (hp : p.Sound) (hsize : stream.size < 0x4000000000000000)
    (h : p.Ready stream n past region resume reported states) (hdata : PartOf stream n data)
    (hfinal : isFinal = true → n + data.size = stream.size) :
    (p.scanOf (h.inputOf hp data) isFinal policy).Remains stream resume
      (((Searched.ofChunk p.longest (StreamState.historyOf region) data n).candidateGroups p.table
        resume.endsAt).flatten.filter fun cand => decide (resume ≤ cand.key)) := by
  have hshows := h.shows hp hsize hdata
  have hover := h.scanOf_over hp hsize hdata hfinal policy
  rw [hp.table_eq]
  constructor
  · refine List.Pairwise.filter _ ?_
    exact Searched.pairwise_candidateGroups hp.searchable (size_literalBytes_le hp) hshows
  · intro cand
    rw [List.mem_filter, decide_eq_true_iff,
      Searched.mem_candidateGroups hp.searchable (size_literalBytes_le hp) hshows]
    constructor
    · rintro ⟨⟨start, hoccurs, -, -, hend⟩, hle⟩
      exact ⟨⟨start, hoccurs⟩, hle, hend⟩
    · rintro ⟨⟨start, hoccurs⟩, hle, hend⟩
      obtain ⟨l, hl, hends, -, -⟩ := Scan.Occurs.spec hover hoccurs
      have hendsAt : resume.endsAt ≤ cand.endsAt := Key.endsAt_le hle
      have hfloor := Scan.floor_le hover hl
        (show resume.endsAt ≤ start + l.bytes.size by omega)
      simp only [scanOf, inputOf, Input.floor] at hfloor
      simp only [Searched.ofChunk, Searched.seamStart]
      exact ⟨⟨start, hoccurs, hfloor, hendsAt, hend⟩, hle⟩

/-- The point from which the chunk is searched. -/
def coreOf (_ : p.Ready stream n past region resume reported states) : Core :=
  ⟨region, ⟨p.repeats.toList.countP fun r => (states r).pending.isSome, .first⟩, .scanning, #[]⟩

/-- The history is read back from the seam, and then the chunk is searched. -/
theorem scanChunk_eq (hp : p.Sound) (hsize : stream.size < 0x4000000000000000)
    (h : p.Ready stream n past region resume reported states) (hdata : PartOf stream n data)
    (isFinal : Bool) (policy : Policy) {buffers : Buffers} (hfit : buffers.Fit p) :
    ∃ seam, seam.size = buffers.seam.size ∧
      p.scanChunk region buffers data isFinal policy = (do
        let (pr, action) ← (p.scanOf (h.inputOf hp data) isFinal policy).search
          (h.coreOf.on buffers.window buffers.ties) resume
          (((Searched.ofChunk p.longest (StreamState.historyOf region) data n).candidateGroups
            p.table resume.endsAt).map .ok)
        let (status, region) ← (p.scanOf (h.inputOf hp data) isFinal policy).closeChunk
          pr.region action
        return ⟨.ok (status, pr.events), region, ⟨seam, pr.window, pr.ties, buffers.tieCapacity⟩⟩)
    := by
  have hscan := h.paused.scanChunk_eq hp hsize (h.input_shows hp hdata) (h.validate hp hsize)
    h.keeps.tracks isFinal policy hfit
  rwa [h.resume_eq] at hscan

/-- The chunk is searched from a point where all that was known is in the state. -/
theorem starts (hp : p.Sound) (hsize : stream.size < 0x4000000000000000)
    (h : p.Ready stream n past region resume reported states) (hdata : PartOf stream n data)
    (hfinal : isFinal = true → n + data.size = stream.size) (policy : Policy) :
    (p.scanOf (h.inputOf hp data) isFinal policy).Starts stream region past resume h.coreOf
      ((Searched.ofChunk p.longest (StreamState.historyOf region) data n).candidateGroups p.table
        resume.endsAt) reported states :=
  ⟨h.keeps, ⟨rfl, fun _ _ _ _ => Key.first_le _⟩, h.found, h.ordered, h.below, h.literals,
    ⟨(List.append_nil past).trans h.events_eq, Policy.allows_nil _, rfl⟩,
    h.remains hp hsize hdata hfinal⟩

/-- A chunk is scanned from each state that waits for it. -/
theorem scanChunk_spec (hp : p.Sound) (hsize : stream.size < 0x4000000000000000)
    (h : p.Ready stream n past region resume reported states) (hdata : PartOf stream n data)
    (hfinal : isFinal = true → n + data.size = stream.size) (policy : Policy) :
    ∃ status events region', p.Scans region data isFinal policy status events region' ∧
      p.Leaves stream (n + data.size) past isFinal policy events.toList region' status := by
  have hover := h.scanOf_over hp hsize hdata hfinal policy
  obtain ⟨c, a, hleads, hfinishes⟩ :=
    Scan.search_spec hover (h.starts hp hsize hdata hfinal policy)
  obtain ⟨status, region', hclose, hleaves⟩ :=
    Scan.closeChunk_spec hover h.owns (h.size_history hp) hfinishes
  refine ⟨status, c.events, region', ?_, hleaves⟩
  intro buffers hfit
  obtain ⟨seam, hseam, hscan⟩ := h.scanChunk_eq hp hsize hdata isFinal policy hfit
  obtain ⟨window, ties, hwindow, hsearch⟩ := hleads buffers.window buffers.ties hfit.window_le
  refine ⟨⟨seam, window, ties, buffers.tieCapacity⟩, ⟨hseam, hwindow, rfl⟩, ?_⟩
  beta_reduce at hsearch
  rw [hscan, hsearch, Checked.ok_bind]
  simp only [Core.on, hclose, Checked.ok_bind, Checked.pure_eq]

end Ready

/-- A stream that was stopped is not scanned anymore. -/
theorem Owns.scanChunk_terminated {p : Program} {region : Bytes} (hp : p.Sound)
    (h : p.Owns region 1) (buffers : Buffers) (data : Bytes) (isFinal : Bool) (policy : Policy) :
    p.scanChunk region buffers data isFinal policy =
      .ok ⟨.ok (.terminated, #[]), region, buffers⟩ := by
  have hstopped : StreamState.isTerminated region = .ok true := h.isTerminated_eq hp
  unfold scanChunk
  rw [StreamState.validateWithin_eq hp.layout, h.validate_terminated]
  simp only [hstopped, Checked.ok_bind, if_true, Checked.pure_eq]

theorem Owns.scans_terminated {p : Program} {region : Bytes} (hp : p.Sound)
    (h : p.Owns region 1) (data : Bytes) (isFinal : Bool) (policy : Policy) :
    p.Scans region data isFinal policy .terminated #[] region := fun buffers _ =>
  ⟨buffers, ⟨rfl, rfl, rfl⟩, h.scanChunk_terminated hp buffers data isFinal policy⟩

end Program

end StreamMatch
