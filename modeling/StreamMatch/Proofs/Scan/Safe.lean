-- A scan that cannot fail. It does not need a state that a stream can be in: it is enough
-- that no run is open while a match of its repeat is pending, and that nothing in the
-- state is after the bytes seen. Each operation succeeds then, and keeps that.
import StreamMatch.Proofs.Repeat.Coherent
import StreamMatch.Proofs.Scan.Flush
import StreamMatch.Proofs.Scan.Runs

namespace StreamMatch.Scan

open Bytes Checked

/-- A scan that is never stopped. The stream is any one that has the bytes that the scan
can see, and ends with them. -/
structure Free (s : Scan) (stream : Bytes) : Prop where
  isOver : s.Over stream ⟨s.input.chunkStart, 0⟩
  size_eq : stream.size = s.input.stop
  rankOf_lt : ∀ r ∈ s.program.repeats, ∀ b, r.rankOf b < 0x100000000
  policy_eq : s.policy = .always

/-- The states of all repeats fit the bytes seen. -/
def Fitting (s : Scan) (states : Repeat → RunState) : Prop :=
  ∀ r ∈ s.program.repeats, (states r).Fits s.input.stop

/-- The region stands for some states and entries, of which none is after the bytes
seen, no event waits for its answer, and the window buffer is large enough. -/
structure Holds (s : Scan) (base : Bytes) (pr : Progress) (states : Repeat → RunState)
    (entries : Nat → PatternEntry) : Prop where
  phase_eq : pr.phase = .scanning
  window_le : s.program.windowSize ≤ pr.window.size
  keeps : s.program.Keeps base pr.region states entries
  entries_le : ∀ i, i < s.program.patterns.size → ∀ last, (entries i).lastEnd = some last →
    last ≤ s.input.stop

/-- A point of a scan from which nothing fails. -/
structure Safe (s : Scan) (base : Bytes) (pr : Progress) (states : Repeat → RunState)
    (entries : Nat → PatternEntry) : Prop extends Holds s base pr states entries where
  counts : pr.pending.Counts s.program.repeats.toList states
  fitting : s.Fitting states

/-- Nothing fails from a point, and no pending match goes before a key. -/
def SafeFrom (s : Scan) (base : Bytes) (limit : Key) (pr : Progress) : Prop :=
  ∃ states entries, s.Safe base pr states entries ∧ s.Waits states limit

variable {s : Scan} {stream base : Bytes} {pr : Progress} {states : Repeat → RunState}
  {entries : Nat → PatternEntry} {r : Repeat} {st : RunState} {limit : Key} {n last : Nat}

theorem Fitting.update (h : s.Fitting states) (hst : st.Fits s.input.stop) :
    s.Fitting (Function.update states r st) := by
  intro r' hr'
  by_cases heq : r' = r
  · subst heq
    rwa [Function.update_self]
  · rw [Function.update_of_ne heq]
    exact h r' hr'

namespace Free

theorem stop_lt (hs : s.Free stream) : s.input.stop < 0x4000000000000000 :=
  hs.size_eq ▸ hs.isOver.size_lt

/-- The byte before an offset that is not the first one in view. -/
theorem byteAt_eq (hs : s.Free stream) (hfloor : s.input.floor < last) (hle : last ≤ s.input.stop) :
    s.input.byteAt (last - 1) = .ok (byteAt stream (last - 1)) := by
  have hstop : s.input.stop = s.input.chunkStart + s.input.data.size := rfl
  exact Input.byteAt_eq hs.isOver.shows (by omega) (by omega)

/-- The last byte before the chunk is in view. -/
theorem floor_lt (hs : s.Free stream) (hpos : 0 < s.input.chunkStart) :
    s.input.floor < s.input.chunkStart := by
  have hfloor := hs.isOver.floor_eq
  have hhistory := hs.isOver.historySize_pos
  omega

end Free

/-! ## Reporting -/

theorem report_safe (hs : s.Free stream) (h : s.Holds base pr states entries)
    {pattern : PatternId} (hpattern : pattern.toNat < s.program.patterns.size) {start : Nat}
    (hlast : last ≤ s.input.stop) :
    Succeeds (fun r => r.2 = .proceed ∧ r.1.pending = pr.pending ∧
        ∃ entries', s.Holds base r.1 states entries') (s.report pr pattern start last) := by
  have hstop := hs.stop_lt
  have hentry : s.entry pr pattern = .ok (entries pattern.toNat) :=
    h.keeps.pattern_eq hs.isOver.sound hpattern
  unfold report
  rw [decide_eq_true h.phase_eq, require_true, Array.getElem?_eq_getElem hpattern, hentry]
  simp only [some?, ok_bind]
  split
  · exact .of_ok ⟨rfl, rfl, entries, h⟩
  · have hbit : PatternEntry.exhaustedBit = 0x8000000000000000 := rfl
    obtain ⟨region', hset, hkeeps⟩ := h.keeps.exists_setPattern hs.isOver.sound hpattern
      (show last + 1 < PatternEntry.exhaustedBit by omega)
      s.program.patterns[pattern.toNat].flags.singleMatch
    simp only [Progress.update, hset, ok_bind, pure_eq, Progress.deliver, Progress.tell,
      Progress.resume, hs.policy_eq]
    refine .of_ok ⟨rfl, rfl, _, rfl, h.window_le, hkeeps, ?_⟩
    intro i hi last' hlast'
    by_cases heq : i = pattern.toNat
    · rw [heq, Function.update_self] at hlast'
      cases hlast'
      exact hlast
    · rw [Function.update_of_ne heq] at hlast'
      exact h.entries_le i hi last' hlast'

/-- A pending match is taken out of its state and reported. -/
theorem report_pending_safe (hs : s.Free stream) (h : s.Holds base pr states entries)
    (hfits : s.Fitting states) (hr : r ∈ s.program.repeats) {m : Run}
    (hm : (states r).pending = some m) :
    ∃ region', (s.program.layout.place r).take pr.region = .ok (region', some m) ∧
      Succeeds (fun o => o.2 = .proceed ∧ ∃ entries',
          s.Holds base o.1 (Function.update states r (states r).take) entries')
        (s.report { pr with region := region' } r.pattern m.startsAt m.endsAt) := by
  obtain ⟨region', htake, hagree, htracks⟩ := Tracker.take_spec (h.keeps.tracks r hr)
  rw [hm] at htake
  have hend := ((hfits r hr).pending m hm).2
  have hlast := (hfits r hr).lastEnd_le
  have hholds : s.Holds base { pr with region := region' }
      (Function.update states r (states r).take) entries :=
    ⟨h.phase_eq, h.window_le, h.keeps.setState hs.isOver.sound hr hagree htracks, h.entries_le⟩
  refine ⟨region', htake, (report_safe hs hholds (hs.isOver.sound.repeat_pattern r hr)
    (Nat.le_trans hend hlast)).mono ?_⟩
  rintro o ⟨hproceed, -, hentries⟩
  exact ⟨hproceed, hentries⟩

/-- Reporting the pending matches before a key never fails. -/
theorem flushSome_safe (hs : s.Free stream) (h : s.Holds base pr states entries)
    (hfits : s.Fitting states) {count : Nat}
    (hcount : count = s.program.repeats.toList.countP fun r => (states r).pending.isSome) :
    Succeeds (fun r => r.2 = .proceed ∧ s.SafeFrom base limit r.1)
      (s.flushSome pr limit count) := by
  induction count generalizing pr states entries with
  | zero =>
    exact .of_ok ⟨rfl, states, entries, ⟨⟨h.phase_eq, h.window_le, h.keeps, h.entries_le⟩,
      counts_none_of_count hcount, hfits⟩, waits_of_count hcount limit⟩
  | succ count ih =>
    obtain ⟨r, hr, m, hm, hleast, hfirst⟩ :=
      exists_firstPending hs.isOver.trackers_eq h.keeps.tracks hcount
    rw [flushSome]
    refine .step hfirst ?_
    by_cases hle : limit ≤ m.key
    · simp only [if_pos hle, pure_eq]
      exact .of_ok ⟨rfl, states, entries, ⟨⟨h.phase_eq, h.window_le, h.keeps, h.entries_le⟩,
        ⟨hcount, fun r hr => hleast r (Array.mem_toList_iff.mp hr)⟩, hfits⟩,
        fun r hr m' hm' => le_trans hle (hleast r hr m' hm')⟩
    · obtain ⟨region', htake, hreport⟩ := report_pending_safe hs h hfits hr hm
      have hcount' :=
        Pending.countP_take hs.isOver.sound.nodup_repeats (Array.mem_toList_iff.mpr hr) hm
      simp only [if_neg hle, Progress.updateWith, htake, ok_bind, pure_eq]
      refine hreport.bind ?_
      rintro ⟨pr', action⟩ ⟨rfl, entries', hholds⟩
      exact ih hholds (hfits.update (hfits r hr).take) (by omega)

theorem flush_safe (hs : s.Free stream) (h : s.Safe base pr states entries) (limit : Key) :
    Succeeds (fun r => r.2 = .proceed ∧ s.SafeFrom base limit r.1) (s.flush pr limit) := by
  unfold flush
  split
  · next hle =>
    exact .of_ok ⟨rfl, states, entries, h, fun r hr m hm =>
      le_trans hle (h.counts.earliest_le r (Array.mem_toList_iff.mpr hr) m hm)⟩
  · exact flushSome_safe hs h.toHolds h.fitting h.counts.count_eq

/-! ## Runs -/

/-- The state of one repeat is changed to one that fits, and what is pending is counted. -/
structure AtRest (s : Scan) (base : Bytes) (states : Repeat → RunState)
    (entries : Nat → PatternEntry) (r : Repeat) (pr : Progress) (st : RunState) : Prop where
  holds : s.Holds base pr (Function.update states r st) entries
  counts : pr.pending.Counts s.program.repeats.toList (Function.update states r st)
  fits : st.Fits s.input.stop

theorem closeRun_safe (hs : s.Free stream) (h : s.Holds base pr states entries)
    (hcounts : pr.pending.Counts s.program.repeats.toList states) (hr : r ∈ s.program.repeats)
    (hpending : (states r).pending = none) (hlastEnd : (states r).lastEnd = some last)
    (hfloor : s.input.floor < last) (hle : last ≤ s.input.stop) :
    Succeeds (fun pr' => ∃ st, s.AtRest base states entries r pr' st)
      (s.closeRun pr (s.program.layout.place r) last) := by
  have hrank := hs.rankOf_lt r hr (byteAt stream (last - 1))
  obtain ⟨region', hclose, hagree, htracks⟩ := Tracker.close_spec (h.keeps.tracks r hr)
    (hs.isOver.sound.trackable r hr) hrank fun _ => hpending
  have hkeeps := h.keeps.setState hs.isOver.sound hr hagree htracks
  have hfits : ((states r).close r (r.rankOf (byteAt stream (last - 1)))).Fits s.input.stop :=
    RunState.fits_close r _ (by rw [hlastEnd]; exact hle) hpending
  have hplace : (s.program.layout.place r).rep = r := rfl
  unfold closeRun
  refine .step (Word.sub_eq_ok (show 1 ≤ last by omega)) (.step (hs.byteAt_eq hfloor hle) ?_)
  rw [hplace] at hclose htracks hkeeps ⊢
  simp only [Progress.updateWith, hclose, ok_bind, pure_eq]
  rcases hrun : (states r).current r (r.rankOf (byteAt stream (last - 1))) with _ | run
  · refine .of_ok ⟨_, ⟨h.phase_eq, h.window_le, hkeeps, h.entries_le⟩, hcounts.of_same ?_, hfits⟩
    rw [RunState.close, hrun, Option.none_or]
  · refine .of_ok ⟨_, ⟨h.phase_eq, h.window_le, hkeeps, h.entries_le⟩,
      hcounts.add hs.isOver.sound.nodup_repeats (Array.mem_toList_iff.mpr hr) hpending ?_, hfits⟩
    rw [RunState.close, hrun, Option.some_or]

/-- A run that can be extended with `n` bytes before offset `last`, and has no match
pending. -/
structure Extends (s : Scan) (st : RunState) (n last : Nat) : Prop where
  pending : st.pending = none
  le : n ≤ last
  meets : 0 < st.length → st.lastEnd.getD 0 + n = last
  meets_of_zero : n = 0 → st.lastEnd = some last
  floor_lt : s.input.floor < last
  le_stop : last ≤ s.input.stop

/-- A run is extended, and closed unless it reaches the end of the bytes seen. -/
theorem settleRun_safe (hs : s.Free stream) (h : s.Holds base pr states entries)
    (hcounts : pr.pending.Counts s.program.repeats.toList states) (hr : r ∈ s.program.repeats)
    (hext : s.Extends (states r) n last) {reachesEnd : Bool}
    (hreach : reachesEnd = true → last = s.input.stop) :
    Succeeds (fun pr' => ∃ st, s.AtRest base states entries r pr' st) (do
      s.settleRun (← extendRun pr (s.program.layout.place r) n last) (s.program.layout.place r)
        last reachesEnd) := by
  have hstop := hs.stop_lt
  have hle := hext.le_stop
  have hlargest : Word.largest = 0xFFFFFFFFFFFFFFFF := rfl
  obtain ⟨region', hextend, hkeeps⟩ := extendRun_spec (c := ⟨pr.region, pr.pending, pr.phase, pr.events⟩)
    hs.isOver.sound h.keeps hr hext.le (by omega) hext.meets hext.meets_of_zero
  have hholds : s.Holds base { pr with region := region' }
      (Function.update states r ((states r).extend n last)) entries :=
    ⟨h.phase_eq, h.window_le, hkeeps, h.entries_le⟩
  have hcounts' : pr.pending.Counts s.program.repeats.toList
      (Function.update states r ((states r).extend n last)) := hcounts.of_same rfl
  refine .step (hextend pr.window pr.ties) ?_
  unfold settleRun
  split
  · next hopen =>
    simp only [Bool.and_eq_true] at hopen
    have hlast := hreach hopen.1
    exact .of_ok ⟨_, hholds, hcounts', RunState.fits_of_open (congrArg some hlast) hext.pending⟩
  · refine (closeRun_safe hs hholds hcounts' hr ?_ ?_ hext.floor_lt hle).mono ?_
    · rw [Function.update_self]
      exact hext.pending
    · rw [Function.update_self]
      rfl
    · rintro pr' ⟨st, hrests⟩
      obtain ⟨hholds', hcounts'', hfits⟩ := hrests
      rw [Function.update_idem] at hholds' hcounts''
      exact ⟨st, hholds', hcounts'', hfits⟩

/-- A run that reaches the chunk can be extended with bytes at the start of the chunk. -/
theorem Extends.of_open (hs : s.Free stream) (hfits : st.Fits s.input.chunkStart)
    (hopen : 0 < st.length) (hlength : st.length ≤ st.lastEnd.getD 0)
    (hle : n ≤ s.input.data.size) : s.Extends st n (s.input.chunkStart + n) := by
  have hlastEnd := hfits.lastEnd_of_open hopen
  rw [hlastEnd, Option.getD_some] at hlength
  have hfloor := hs.floor_lt (show 0 < s.input.chunkStart by omega)
  have hstop : s.input.stop = s.input.chunkStart + s.input.data.size := rfl
  refine ⟨hfits.pending_eq_none hopen, by omega, fun _ => ?_, fun hzero => ?_, by omega, by omega⟩
  · rw [hlastEnd, Option.getD_some]
  · rw [hlastEnd, hzero, Nat.add_zero]

/-- Going on with the open runs never fails. Those of the repeats that are left end where
the chunk starts. -/
theorem extendOpenRuns_safe (hs : s.Free stream) (h : s.Holds base pr states entries)
    (hcounts : pr.pending.Counts s.program.repeats.toList states) {left : List Repeat}
    (hmid : s.Midway (fun _ st => st.Fits s.input.chunkStart) (fun _ st => st.Fits s.input.stop)
      left states) :
    Succeeds (fun pr' => ∃ states', s.Safe base pr' states' entries)
      (s.extendOpenRuns pr (left.map s.program.layout.place)) := by
  induction left generalizing pr states with
  | nil => exact .of_ok ⟨states, h, hcounts, fun r hr => hmid.after r hr List.not_mem_nil⟩
  | cons r rest ih =>
    have hr := hmid.mem_repeats r List.mem_cons_self
    have hfits := hmid.before r List.mem_cons_self
    have hisOpen := (h.keeps.tracks r hr).isOpen_eq (hs.isOver.sound.trackable r hr)
    rw [List.map_cons, extendOpenRuns]
    by_cases hopen : 0 < (states r).length
    · obtain ⟨n, hn, hle, -⟩ := Input.leading_spec hs.isOver.shows r.allowed
        hs.isOver.size_lt_sizeBound
      have hinput : s.input.stop = s.input.chunkStart + s.input.data.size := rfl
      have hstop := hs.stop_lt
      have hbound : Word.bound = 0x10000000000000000 := rfl
      have hext := Extends.of_open hs hfits hopen (h.keeps.tracks r hr).length_le hle
      have hreach : decide (s.input.data.size ≤ n) = true →
          s.input.chunkStart + n = s.input.stop := by
        intro hall
        have hsize := of_decide_eq_true hall
        omega
      rw [if_pos (by rw [hisOpen, decide_eq_true hopen])]
      refine .step hn (.step (Word.add_eq_ok (by omega)) ?_)
      have hsettle := (settleRun_safe hs h hcounts hr hext hreach).bind fun pr' hst =>
        have hrest := hst.choose_spec
        ih hrest.holds hrest.counts (hmid.next hrest.fits)
      rwa [bind_assoc] at hsettle
    · rw [if_neg (by rw [hisOpen, decide_eq_false hopen]; simp)]
      have hsame := hmid.next (hfits.raise (by omega) (Nat.le_add_right _ s.input.data.size))
      rw [Function.update_eq_self] at hsame
      exact ih h hcounts hsame

end StreamMatch.Scan
