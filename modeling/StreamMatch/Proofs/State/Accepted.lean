-- The states that are accepted when they are checked. They need not be those of any stream:
-- a state from which every scan succeeds is accepted, and an accepted state is such a state
-- if its repeats are coherent.
import StreamMatch.Proofs.Repeat.Coherent
import StreamMatch.Proofs.Scan.Core
import StreamMatch.State.Validation

namespace StreamMatch

open Bytes

/-! ## Checks inside of the state -/

namespace StreamState

variable {layout : Layout} {repeats : Array Repeat} {region : Bytes} {r : Repeat} {i : Nat}

/-- The repeats of a program are checked where their states are. -/
theorem repeatFits_eq (h : layout.Sound repeats) (hr : r ∈ repeats) (offset : Nat) :
    repeatFits layout region offset r = (layout.place r).isConsistent region offset := by
  unfold repeatFits
  rw [h.extent r hr]
  rfl

theorem patternFitsWithin_eq (h : layout.Sound repeats) (hsize : region.size = layout.size)
    (offset : Nat) (hi : i < layout.patternCount) :
    patternFitsWithin layout region offset i = .ok (patternFits layout region offset i) := by
  have hheader := h.header_le hsize
  unfold patternFitsWithin patternFits
  rw [pattern_eq (by unfold Layout.patternAt Layout.historyAt; omega), Checked.ok_bind]
  unfold entryOf
  dsimp only
  split <;> rfl

theorem repeatFitsWithin_eq (h : layout.Sound repeats) (hsize : region.size = layout.size)
    (offset : Nat) (hr : r ∈ repeats) :
    repeatFitsWithin layout region offset r = .ok (repeatFits layout region offset r) := by
  unfold repeatFitsWithin
  rw [Layout.tracker_eq_place h hr hsize, Checked.ok_bind, Tracker.isConsistentWithin_eq,
    repeatFits_eq h hr]

theorem isConsistentWithin_eq (h : layout.Sound repeats) (hsize : region.size = layout.size) :
    isConsistentWithin layout repeats region = .ok (isConsistent layout repeats region) := by
  have hfixed := h.fixed_le hsize
  have hpatterns := Checked.allM_eq_ok fun i hi =>
    patternFitsWithin_eq h hsize (offsetOf region) (List.mem_range.mp hi)
  have hrepeats := Checked.allM_eq_ok fun r hr =>
    repeatFitsWithin_eq h hsize (offsetOf region) (Array.mem_toList_iff.mp hr)
  unfold isConsistentWithin isConsistent historyLength
  rw [offset_eq hfixed, readWithin_eq_ok (by omega)]
  simp only [resume_eq hfixed, hpatterns, hrepeats, Checked.ok_bind, Checked.ite_eq_ok,
    Except.ok.injEq, Array.all_toList]
  rw [Bool.eq_iff_iff]
  simp only [Bool.and_eq_true, Bool.not_eq_true', decide_eq_false_iff_not, decide_eq_true_iff,
    beq_iff_eq, ne_eq, not_not, Nat.not_lt, and_assoc, Bool.not_eq_false]
  rfl

/-- Whatever the bytes are, a check of them as a state reads nothing outside of them. -/
theorem validateWithin_eq (h : layout.Sound repeats) (checksum : UInt32) (region : Bytes) :
    validateWithin layout repeats checksum region =
      .ok (validate layout repeats checksum region) := by
  unfold validateWithin validate
  by_cases hsize : region.size = layout.size
  · have hfixed := h.fixed_le hsize
    rw [if_neg (by simp [hsize]), if_neg (by simp [hsize]), sliceWithin_eq_ok (by omega),
      readWithin_eq_ok (by omega), isTerminated_eq hfixed, isConsistentWithin_eq h hsize]
    unfold flags
    rw [readWithin_eq_ok (by omega)]
    simp only [Checked.ok_bind, beq_iff_eq]
    split
    · rfl
    · split <;> rfl
  · rw [if_pos hsize, if_pos hsize]
    rfl

end StreamState

namespace Program

/-- A state belongs to a program, and has the given flags. -/
structure Owns (p : Program) (region : Bytes) (flags : Nat) : Prop where
  size_eq : region.size = p.layout.size
  magic_eq : (region.slice 0 4).toList = StreamState.magic
  checksum_eq : region.readNumber 4 4 = p.checksum.toNat
  flags_eq : region.readNumber 28 1 = flags

/-- A state after `n` bytes that was not stopped. It has all the history it can have. -/
structure Paused (p : Program) (n : Nat) (region : Bytes) : Prop where
  owns : p.Owns region 0
  offset_eq : StreamState.offsetOf region = n
  historyLength_eq : region.readNumber 30 2 = min p.layout.historySize n

/-- A state after `n` bytes that was not stopped, in which nothing is after the bytes. This
is all that is checked in it. -/
structure Accepted (p : Program) (n : Nat) (region : Bytes) : Prop extends Paused p n region where
  resume_le : (StreamState.resumeOf region).endsAt ≤ Word.addSat n 1
  lastEnd_le : ∀ i, i < p.patterns.size → ∀ last,
    (StreamState.entryOf p.layout region i).lastEnd = some last → last ≤ n
  repeats : ∀ r ∈ p.repeats, (p.layout.place r).isConsistent region n = true

/-- A state after `n` bytes which stands for some states of the repeats and entries of the
patterns. None of them is after the bytes seen. -/
structure Resumes (p : Program) (n : Nat) (region : Bytes) (states : Repeat → RunState)
    (entries : Nat → PatternEntry) : Prop extends Paused p n region where
  resume_le : (StreamState.resumeOf region).endsAt ≤ n + 1
  keeps : p.Keeps region region states entries
  fits : ∀ r ∈ p.repeats, (states r).Fits n
  entries_le : ∀ i, i < p.patterns.size → ∀ last, (entries i).lastEnd = some last → last ≤ n

/-- A state after `n` bytes from which every scan succeeds. -/
def Resumable (p : Program) (n : Nat) (region : Bytes) : Prop :=
  ∃ states entries, p.Resumes n region states entries

variable {p : Program} {region : Bytes} {n flags : Nat} {r : Repeat}
  {states : Repeat → RunState} {entries : Nat → PatternEntry}

namespace Owns

theorem header_le (hp : p.Sound) (h : p.Owns region flags) :
    32 + p.layout.historySize ≤ region.size := by
  have hheader := hp.layout.header_le h.size_eq
  omega

theorem isTerminated_eq (hp : p.Sound) (h : p.Owns region flags) :
    StreamState.isTerminated region = .ok (flags % 2 == 1) := by
  have hle := h.header_le hp
  rw [StreamState.isTerminated_eq (by omega), h.flags_eq]

/-- The state of a stream that was stopped is accepted. -/
theorem validate_terminated (h : p.Owns region 1) :
    StreamState.validate p.layout p.repeats p.checksum region = .ok () := by
  unfold StreamState.validate
  rw [if_neg (by simp [h.size_eq]), if_neg (by simp [h.magic_eq, h.checksum_eq, h.flags_eq]),
    if_pos (by rw [h.flags_eq])]

end Owns

/-! ## Checked states -/

theorem patternFits_iff {i : Nat} : StreamState.patternFits p.layout region n i = true ↔
    ∀ last, (StreamState.entryOf p.layout region i).lastEnd = some last → last ≤ n := by
  unfold StreamState.patternFits
  rw [show PatternEntry.ofWord _ = StreamState.entryOf p.layout region i from rfl]
  rcases hlast : (StreamState.entryOf p.layout region i).lastEnd with _ | last
  · simp [hlast]
  · simp [hlast]

theorem isConsistent_iff (hp : p.Sound) :
    StreamState.isConsistent p.layout p.repeats region = true ↔
      region.readNumber 30 2 = min p.layout.historySize (StreamState.offsetOf region) ∧
      (StreamState.resumeOf region).endsAt ≤ Word.addSat (StreamState.offsetOf region) 1 ∧
      (∀ i, i < p.patterns.size → ∀ last,
        (StreamState.entryOf p.layout region i).lastEnd = some last →
          last ≤ StreamState.offsetOf region) ∧
      ∀ r ∈ p.repeats,
        (p.layout.place r).isConsistent region (StreamState.offsetOf region) = true := by
  have hrepeats : (∀ r ∈ p.repeats, StreamState.repeatFits p.layout region
        (StreamState.offsetOf region) r = true) ↔ ∀ r ∈ p.repeats,
      (p.layout.place r).isConsistent region (StreamState.offsetOf region) = true :=
    forall₂_congr fun r hr => by rw [StreamState.repeatFits_eq hp.layout hr]
  have hsize : (p.repeats.size == p.layout.repeats.size) = true :=
    beq_iff_eq.mpr hp.layout.repeats_size
  rw [← hrepeats]
  unfold StreamState.isConsistent
  rw [hsize]
  simp only [Bool.and_true, Bool.and_eq_true, beq_iff_eq, decide_eq_true_iff, List.all_eq_true,
    List.mem_range, Array.all_eq_true', hp.patternCount, patternFits_iff, and_assoc]
  rfl

/-- Of the states of streams that were not stopped, those are accepted in which nothing is
after the bytes seen. -/
theorem accepted_iff (hp : p.Sound) :
    p.Accepted (StreamState.offsetOf region) region ↔
      StreamState.validate p.layout p.repeats p.checksum region = .ok () ∧
        StreamState.isTerminated region = .ok false := by
  constructor
  · intro h
    have howns := h.owns
    have hconsistent := (isConsistent_iff hp).mpr
      ⟨h.historyLength_eq, h.resume_le, h.lastEnd_le, h.repeats⟩
    refine ⟨?_, howns.isTerminated_eq hp⟩
    unfold StreamState.validate
    rw [if_neg (by simp [howns.size_eq]),
      if_neg (by simp [howns.magic_eq, howns.checksum_eq, howns.flags_eq]),
      if_neg (by rw [howns.flags_eq]; decide), if_pos hconsistent]
  · rintro ⟨hvalid, hrunning⟩
    unfold StreamState.validate at hvalid
    split at hvalid
    · cases hvalid
    next hsize =>
    split at hvalid
    · cases hvalid
    next hheader =>
    simp only [not_or, not_not] at hsize hheader
    obtain ⟨hmagic, hchecksum, hflags⟩ := hheader
    rw [StreamState.isTerminated_eq (hp.layout.fixed_le hsize)] at hrunning
    split at hvalid
    · next hstopped => simp [hstopped] at hrunning
    next hopen =>
    split at hvalid
    · next hconsistent =>
      obtain ⟨hlength, hresume, hentries, hrepeats⟩ := (isConsistent_iff hp).mp hconsistent
      exact ⟨⟨⟨hsize, hmagic, hchecksum, by omega⟩, rfl, hlength⟩, hresume, hentries, hrepeats⟩
    · cases hvalid

theorem Accepted.validate (hp : p.Sound) (h : p.Accepted n region) :
    StreamState.validate p.layout p.repeats p.checksum region = .ok () := by
  rw [← h.offset_eq] at h
  exact ((accepted_iff hp).mp h).1

/-! ## Coherent states -/

/-- A state from which every scan succeeds is accepted. -/
theorem Resumes.accepted (hp : p.Sound) (hlt : n < 0x4000000000000000)
    (h : p.Resumes n region states entries) : p.Accepted n region := by
  have hlargest : Word.largest = 0xFFFFFFFFFFFFFFFF := rfl
  have hresume := h.resume_le
  refine ⟨h.toPaused, ?_, fun i hi => ?_, fun r hr => ?_⟩
  · unfold Word.addSat
    omega
  · rw [h.keeps.entry i hi]
    exact h.entries_le i hi
  · exact (h.keeps.tracks r hr).isConsistent (hp.trackable r hr) (h.fits r hr)

theorem Resumes.coherent (hp : p.Sound) (h : p.Resumes n region states entries)
    (hr : r ∈ p.repeats) : (p.layout.place r).Coherent region :=
  (h.keeps.tracks r hr).coherent (hp.trackable r hr) (h.fits r hr)

/-- Every scan succeeds from a state that was accepted if its repeats are coherent. -/
theorem Accepted.resumable (hp : p.Sound) (h : p.Accepted n region)
    (hlt : n < 0x4000000000000000)
    (hcoherent : ∀ r ∈ p.repeats, (p.layout.place r).Coherent region) : p.Resumable n region := by
  have hlargest : Word.largest = 0xFFFFFFFFFFFFFFFF := rfl
  have hstate : ∀ r ∈ p.repeats, ∃ st, (p.layout.place r).Tracks region st ∧ st.Fits n :=
    fun r hr => Tracker.exists_tracks_of_isConsistent (h.repeats r hr) (hcoherent r hr)
      (by rw [h.owns.size_eq]; exact hp.layout.inside r hr) (by omega)
  have hresume := h.resume_le
  unfold Word.addSat at hresume
  refine ⟨fun r => if hr : r ∈ p.repeats then (hstate r hr).choose else .start,
    StreamState.entryOf p.layout region, h.toPaused, by omega,
    ⟨AgreeOutside.refl _ _ _, h.owns.size_eq, fun r hr => ?_, fun _ _ => rfl⟩, fun r hr => ?_,
    h.lastEnd_le⟩
  · rw [dif_pos hr]
    exact (hstate r hr).choose_spec.1
  · rw [dif_pos hr]
    exact (hstate r hr).choose_spec.2

end Program

end StreamMatch
