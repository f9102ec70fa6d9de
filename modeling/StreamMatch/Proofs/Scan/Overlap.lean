-- States that are accepted, and in which a run is open while a match of its repeat is
-- pending. If the run ends there and is within the bounds, the scan fails. Every program has
-- such states for each of its repeats.
import StreamMatch.Proofs.Repeat.Steps
import StreamMatch.Proofs.Scan.Chunk

namespace StreamMatch

open Bytes Checked

/-- A run can go on that would match if it ended, and another match is pending. -/
structure RunState.Overlaps (st : RunState) (r : Repeat) : Prop where
  isOpen : 0 < st.length
  accepts : r.accepts st.length = true
  pending : st.pending.isSome = true

/-! ## One repeat -/

namespace Tracker

variable {t : Tracker} {s : Bytes} {st : RunState} {last : Nat}

/-- A run cannot be closed while another match is pending. -/
theorem close_fails (h : t.Tracks s st) (hr : t.rep.Trackable) (ho : st.Overlaps t.rep)
    (rank : Nat) : Fails (t.close s rank) := by
  rcases hclose : t.close s rank with fault | ⟨s', m⟩
  · exact ⟨fault, rfl⟩
  · have hcurrent : (st.current t.rep rank).isSome = true := by
      rw [RunState.current_eq, if_pos ⟨ho.isOpen, ho.accepts⟩]
      rfl
    have hpending := ho.pending
    rw [close_checks h hr hclose hcurrent] at hpending
    cases hpending

/-- A pending match can be written beside a run. -/
theorem exists_pending (h : t.Tracks s st) (hlast : st.lastEnd = some last) :
    ∃ s', AgreeOutside t.base t.rep.stateSize s s' ∧
      t.Tracks s' { st with pending := some ⟨last - st.length, last, 0⟩ } := by
  have hpos := t.rep.stateSize_pos
  have hfits := h.fits
  have hlength := h.length_le
  have hlt := h.lastEnd_lt
  have hbound : Word.largest + 1 = Word.bound := by decide
  rw [hlast, Option.getD_some] at hlength hlt
  obtain ⟨s', -, hagree, hread⟩ :=
    pending?_write (t := t) (s := s) (by omega) hlength (by omega) (show 0 < 0x100000000 by decide)
  have hend : t.runEnd? s' = st.lastEnd := by
    rw [← h.lastEnd_eq]
    unfold runEnd?
    rw [hagree.readWord_eq (by omega)]
  exact ⟨s', hagree.mono (by omega) (by omega), by rw [hagree.size_eq]; exact hfits, hend,
    h.length_le, h.lastEnd_lt, counts_frame hagree (by omega) h.counts, hread⟩

end Tracker

/-! ## All repeats -/

/-- The state of each repeat is tracked, and that of one of them has an overlap. -/
def Program.Overlapping (p : Program) (base region : Bytes) (r : Repeat) : Prop :=
  ∃ states entries, p.Keeps base region states entries ∧ (states r).Overlaps r

namespace Scan

variable {s : Scan} {base : Bytes} {pr : Progress} {r r' : Repeat} {n last : Nat}

/-- The overlap stays when the state of another repeat changes. -/
theorem overlapping_setState (hp : s.program.Sound) {region region' : Bytes}
    {states : Repeat → RunState} {entries : Nat → PatternEntry} {st : RunState}
    (hkeeps : s.program.Keeps base region states entries) (ho : (states r).Overlaps r)
    (hr' : r' ∈ s.program.repeats) (hne : r ≠ r')
    (hagree : AgreeOutside (s.program.layout.place r').base r'.stateSize region region')
    (htracks : (s.program.layout.place r').Tracks region' st) :
    s.program.Overlapping base region' r := by
  refine ⟨_, entries, hkeeps.setState hp hr' hagree htracks, ?_⟩
  rwa [Function.update_of_ne hne]

theorem extendRun_overlapping (hp : s.program.Sound)
    (h : s.program.Overlapping base pr.region r) (hr' : r' ∈ s.program.repeats) (hne : r ≠ r')
    (hle : n ≤ last) : Ensures (fun pr' => s.program.Overlapping base pr'.region r)
      (extendRun pr (s.program.layout.place r') n last) := by
  unfold extendRun Progress.update
  refine .step fun region' hextend => .of_ok ?_
  rcases Nat.eq_zero_or_pos n with rfl | hpos
  · cases hextend
    exact h
  · obtain ⟨states, entries, hkeeps, ho⟩ := h
    obtain ⟨hagree, htracks⟩ := Tracker.extend_eq_ok (hkeeps.tracks r' hr')
      (hp.trackable r' hr') hpos hle hextend
    exact overlapping_setState hp hkeeps ho hr' hne hagree htracks

theorem closeRun_overlapping (hp : s.program.Sound) (hrank : ∀ b, r'.rankOf b < 0x100000000)
    (h : s.program.Overlapping base pr.region r) (hr' : r' ∈ s.program.repeats) (hne : r ≠ r')
    (last : Nat) : Ensures (fun pr' => s.program.Overlapping base pr'.region r)
      (s.closeRun pr (s.program.layout.place r') last) := by
  obtain ⟨states, entries, hkeeps, ho⟩ := h
  unfold closeRun Progress.updateWith
  refine .step fun _ _ => .step fun b _ => ?_
  refine Ensures.bind (P := fun o => s.program.Overlapping base o.1.region r) ?_ ?_
  · refine .step fun ⟨region', run⟩ hclose => .of_ok ?_
    obtain ⟨-, hagree, htracks⟩ := Tracker.close_eq_ok (hkeeps.tracks r' hr')
      (hp.trackable r' hr') (hrank b) hclose
    exact overlapping_setState hp hkeeps ho hr' hne hagree htracks
  · rintro ⟨pr', run⟩ hafter
    rcases run with _ | run
    · exact .of_ok hafter
    · exact .of_ok hafter

theorem closeRun_fails (hp : s.program.Sound) (h : s.program.Overlapping base pr.region r)
    (hr : r ∈ s.program.repeats) (last : Nat) :
    Fails (s.closeRun pr (s.program.layout.place r) last) := by
  obtain ⟨states, entries, hkeeps, ho⟩ := h
  unfold closeRun Progress.updateWith
  refine .step fun _ _ => .step fun b _ => ?_
  exact ((Tracker.close_fails (hkeeps.tracks r hr) (hp.trackable r hr) ho _).bind _).bind _

/-- The runs of a repeat that are open end where the chunk starts. -/
structure EndsRuns (s : Scan) (r : Repeat) : Prop where
  leading_eq : r.allowed.leading s.input.data = .ok 0
  reaches : s.input.data.size = 0 → s.isFinal = true

/-- The overlap is found when the open runs are gone on with. -/
theorem extendOpenRuns_fails (hp : s.program.Sound)
    (hrank : ∀ r ∈ s.program.repeats, ∀ b, r.rankOf b < 0x100000000)
    (h : s.program.Overlapping base pr.region r) (hends : s.EndsRuns r) {repeats : List Repeat}
    (hsub : ∀ r ∈ repeats, r ∈ s.program.repeats) (hr : r ∈ repeats) :
    Fails (s.extendOpenRuns pr (repeats.map s.program.layout.place)) := by
  induction repeats generalizing pr with
  | nil => exact absurd hr List.not_mem_nil
  | cons r' rest ih =>
    have hr' := hsub r' List.mem_cons_self
    have hrest := fun x hx => hsub x (List.mem_cons_of_mem r' hx)
    rw [List.map_cons, extendOpenRuns]
    by_cases heq : r = r'
    · subst heq
      obtain ⟨states, entries, hkeeps, ho⟩ := h
      have hisOpen : (s.program.layout.place r).isOpen pr.region = true := by
        rw [(hkeeps.tracks r hr').isOpen_eq (hp.trackable r hr')]
        exact decide_eq_true ho.isOpen
      rw [if_pos hisOpen]
      refine .step fun n hn => .step fun last _ => .step fun mid hmid => Fails.bind ?_ _
      obtain rfl : n = 0 := by
        rw [show (s.program.layout.place r).rep = r from rfl, hends.leading_eq] at hn
        exact (Except.ok.inj hn).symm
      -- Nothing is added to the run, and it is closed.
      cases hmid
      have hclosed : (decide (s.input.data.size ≤ 0) && !s.isFinal) = false := by
        rcases Nat.eq_zero_or_pos s.input.data.size with hzero | hpos
        · rw [hends.reaches hzero, Bool.not_true, Bool.and_false]
        · rw [decide_eq_false (by omega), Bool.false_and]
      unfold settleRun
      rw [hclosed]
      exact closeRun_fails hp ⟨states, entries, hkeeps, ho⟩ hr' last
    · have hin := (List.mem_cons.mp hr).resolve_left heq
      by_cases hopen : (s.program.layout.place r').isOpen pr.region = true
      · rw [if_pos hopen]
        refine .step fun n _ => .step fun last hlast => .step fun mid hmid =>
          .step fun pr' hsettle => ih ?_ hrest hin
        have hle := Word.le_of_add_eq_ok hlast
        have hmid' := extendRun_overlapping hp h hr' heq hle mid hmid
        unfold settleRun at hsettle
        split at hsettle
        · cases hsettle
          exact hmid'
        · exact closeRun_overlapping hp (hrank r' hr') hmid' hr' heq last pr' hsettle
      · rw [if_neg hopen]
        exact ih h hrest hin

end Scan

/-! ## Chunks -/

namespace Program

variable {p : Program} {n : Nat} {region data : Bytes} {r : Repeat} {isFinal : Bool}

/-- No chunk is scanned that starts with a byte which ends the run, and the stream cannot be
closed. -/
theorem Accepted.scanChunk_fails (hp : p.Sound)
    (hrank : ∀ r ∈ p.repeats, ∀ b, r.rankOf b < 0x100000000) (h : p.Accepted n region)
    (hr : r ∈ p.repeats) (hoverlap : p.Overlapping region region r)
    (hlt : n + data.size < 0x4000000000000000)
    (hout : 0 < data.size → r.allowed.contains (byteAt data 0) = false)
    (hfinal : data.size = 0 → isFinal = true) (policy : Policy) {buffers : Buffers}
    (hfit : buffers.Fit p) : Fails (p.scanChunk region buffers data isFinal policy) := by
  have hpaused := h.toPaused
  obtain ⟨states, entries, hkeeps, ho⟩ := hoverlap
  obtain ⟨stream, hsize, hhistory, hdata⟩ := PartOf.exists_stream (hpaused.history_le hp) data
  obtain ⟨seam, -, hscan⟩ := hpaused.scanChunk_eq hp
    (show stream.size < 0x4000000000000000 by omega) ⟨hhistory, hdata⟩ (h.validate hp)
    hkeeps.tracks isFinal policy hfit
  have hends : (p.scanOf (hpaused.inputOf hp data) isFinal policy).EndsRuns r := by
    obtain ⟨k, hk, hstops⟩ := ByteClass.leadingFrom_spec (c := r.allowed) (Nat.zero_le data.size)
      (Nat.lt_trans (show data.size < 0x4000000000000000 by omega) (by decide))
    refine ⟨?_, hfinal⟩
    rcases Nat.eq_zero_or_pos k with rfl | hpos
    · exact hk
    · have hin := hstops.inside 0 (Nat.le_refl 0) (by omega)
      have hle := hstops.stop_le
      rw [hout (by omega)] at hin
      cases hin
  rw [hscan]
  refine Fails.bind (Fails.bind ?_ _) _
  exact Scan.extendOpenRuns_fails hp hrank ⟨states, entries, hkeeps, ho⟩ hends
    (fun r hr => Array.mem_toList_iff.mp hr) (Array.mem_toList_iff.mpr hr)

/-- Whatever the states of the repeats are, some state after `n` bytes has them. The bytes can
be zeros. -/
theorem exists_paused (hp : p.Sound) (hlt : n < 0x4000000000000000) {last : Bytes}
    {states : Repeat → RunState} {entries : Nat → PatternEntry}
    (hkeeps : p.Keeps (StreamState.initial p.streamSize p.checksum) last states entries) :
    ∃ region, p.Paused n region ∧ StreamState.resumeOf region = .first ∧
      p.Keeps region region states entries := by
  have hzeros : (zeros n).size = n := zeros_size n
  have hready := ready_initial hp (zeros n)
  have hover : (p.scanOf (hready.inputOf hp (zeros n)) false .always).Over (zeros n) .first :=
    hready.scanOf_over hp (by omega) (PartOf.refl (zeros n)) (fun hfinal => by cases hfinal) .always
  obtain ⟨region, -, hpaused, -, hresume, hkeeps'⟩ := Scan.closeChunk_paused hover hready.owns
    (hready.size_history hp) (.of_frame hkeeps.frame) hkeeps
  have hstop : (p.scanOf (hready.inputOf hp (zeros n)) false .always).input.stop = n := by
    show 0 + (zeros n).size = n
    omega
  rw [hstop] at hpaused
  refine ⟨region, hpaused, ?_, hkeeps'⟩
  rw [hresume, ← hready.resume_eq]
  unfold StreamState.resumeOf
  rw [hkeeps.frame.readNumber_eq (by omega), hkeeps.frame.readNumber_eq (by omega)]

/-- Each repeat of each program has an accepted state with an overlap, at every offset that
is a length within its bounds. A run reaches back to the first byte, and a match of the same
bytes is pending. -/
theorem exists_overlapping (hp : p.Sound) (hr : r ∈ p.repeats) (hpos : 0 < n)
    (ha : r.accepts n = true) (hlt : n < 0x4000000000000000) :
    ∃ region, p.Accepted n region ∧ p.Overlapping region region r := by
  have hlargest : Word.largest = 0xFFFFFFFFFFFFFFFF := rfl
  have hready := ready_initial hp .empty
  obtain ⟨mid, -, hagree, htracks⟩ := Tracker.extend_spec (hready.keeps.tracks r hr)
    (hp.trackable r hr) hpos (Nat.le_refl n) (by omega)
    (fun hopen => absurd hopen (Nat.lt_irrefl 0))
  obtain ⟨last, hagree', htracks'⟩ := Tracker.exists_pending htracks rfl
  have hstate : ({ RunState.start.extend n n with
      pending := some ⟨n - (RunState.start.extend n n).length, n, 0⟩ } : RunState) =
        ⟨some n, n, some ⟨0, n, 0⟩⟩ := by
    simp [RunState.extend, RunState.start]
  rw [hstate] at htracks'
  obtain ⟨region, hpaused, hresume, hkeeps⟩ :=
    exists_paused hp hlt (hready.keeps.setState hp hr (hagree.trans hagree') htracks')
  refine ⟨region, ⟨hpaused, ?_, fun i hi e he => ?_, fun r' hr' => ?_⟩, _, _, hkeeps, ?_⟩
  · rw [hresume]
    exact Nat.zero_le _
  · rw [hkeeps.entry i hi, ← hready.keeps.entry i hi] at he
    exact Nat.le_trans (hready.lastEnd_le hi he) (Nat.zero_le n)
  · have htracked := hkeeps.tracks r' hr'
    by_cases heq : r' = r
    · subst heq
      rw [Function.update_self] at htracked
      refine Tracker.isConsistent_of_tracks htracked (hp.trackable r' hr') ?_ (fun _ => rfl) ?_
      · rintro e ⟨⟩
        exact Nat.le_refl n
      · rintro m ⟨⟩
        exact Nat.le_refl n
    · rw [Function.update_of_ne heq] at htracked
      exact htracked.isConsistent (hp.trackable r' hr')
        ((r'.start_found .empty).fits.raise rfl (Nat.zero_le n))
  · rw [Function.update_self]
    exact ⟨hpos, ha, rfl⟩

end Program

end StreamMatch
