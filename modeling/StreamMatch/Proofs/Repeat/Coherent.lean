-- States of a repeat that need not be those of any stream. What the check of a state does
-- not look at is whether a match is pending while a run can go on, whether it ends after
-- the last run, and how a run is counted inside the payload.
import StreamMatch.Proofs.Repeat.RunState

namespace StreamMatch

open Bytes

namespace RunState

variable {st : RunState} {n n' : Nat}

/-- A run state after `n` bytes of some stream or other. A run that can go on reaches the
end of the bytes, and a match is pending only between two runs. -/
structure Fits (st : RunState) (n : Nat) : Prop where
  lastEnd_le : st.lastEnd.getD 0 ≤ n
  lastEnd_of_open : 0 < st.length → st.lastEnd = some n
  pending : ∀ m, st.pending = some m → st.length = 0 ∧ m.endsAt ≤ st.lastEnd.getD 0

theorem Fits.take (h : st.Fits n) : st.take.Fits n :=
  ⟨h.lastEnd_le, h.lastEnd_of_open, fun m hm => by cases hm⟩

/-- Without a run that can go on, bytes can follow. -/
theorem Fits.raise (h : st.Fits n) (hclosed : st.length = 0) (hle : n ≤ n') : st.Fits n' :=
  ⟨Nat.le_trans h.lastEnd_le hle, fun hopen => by omega, h.pending⟩

theorem Fits.pending_eq_none (h : st.Fits n) (hopen : 0 < st.length) : st.pending = none := by
  rcases hm : st.pending with _ | m
  · rfl
  · have hzero := (h.pending m hm).1
    omega

/-- A run that reaches the end of the bytes can go on. -/
theorem fits_of_open (hlast : st.lastEnd = some n) (hpending : st.pending = none) : st.Fits n := by
  refine ⟨?_, fun _ => hlast, fun m hm => ?_⟩
  · rw [hlast]
    exact Nat.le_refl n
  · rw [hpending] at hm
    cases hm

theorem fits_close (r : Repeat) (rank : Nat) (hlast : st.lastEnd.getD 0 ≤ n)
    (hpending : st.pending = none) : (st.close r rank).Fits n := by
  refine ⟨hlast, fun hopen => absurd hopen (Nat.lt_irrefl 0), fun m hm => ⟨rfl, ?_⟩⟩
  unfold close current at hm
  rw [hpending, Option.or_none] at hm
  simp only at hm
  split at hm
  · cases hm
    exact Nat.le_refl _
  · cases hm

end RunState

namespace Tracker

variable {t : Tracker} {s : Bytes} {offset : Nat}

/-- What the check of a state does not see: no match is pending while a run can go on or
after the end of the last run, and the payload counts the run step by step. -/
structure Coherent (t : Tracker) (s : Bytes) : Prop where
  pending : ∀ e, t.pendingEnd? s = some e → t.runLength s = 0 ∧ e ≤ (t.runEnd? s).getD 0
  counts : t.Counts s (t.runLength s) ((t.runEnd? s).getD 0)

/-- The state of a run state that fits is accepted. -/
theorem Tracks.isConsistent {st : RunState} (h : t.Tracks s st) (hr : t.rep.Trackable)
    (hfits : st.Fits offset) : t.isConsistent s offset = true := by
  refine isConsistent_of_tracks h hr (fun e he => ?_) hfits.lastEnd_of_open fun m hm => ?_
  · have hle := hfits.lastEnd_le
    rwa [he] at hle
  · exact Nat.le_trans (hfits.pending m hm).2 hfits.lastEnd_le

/-- The state of a run state that fits is coherent. -/
theorem Tracks.coherent {st : RunState} (h : t.Tracks s st) (hr : t.rep.Trackable)
    (hfits : st.Fits offset) : t.Coherent s := by
  have hlength := h.runLength_eq hr
  have hpending := h.pending_eq
  refine ⟨fun e he => ?_, ?_⟩
  · unfold pending? at hpending
    rw [he] at hpending
    obtain ⟨start, -, hm⟩ := Checked.bind_eq_ok_iff.mp hpending
    obtain ⟨hzero, hle⟩ := hfits.pending _ (Except.ok.inj hm).symm
    rw [hlength, h.lastEnd_eq]
    exact ⟨by rw [hzero]; exact Nat.zero_min _, hle⟩
  · have hcounts := h.counts
    unfold Counts at hcounts ⊢
    rw [hlength, h.lastEnd_eq]
    simpa only [Nat.min_assoc, Nat.min_self] using hcounts

/-- A state that is accepted and coherent stands for a run state. -/
theorem exists_tracks_of_isConsistent (h : t.isConsistent s offset = true)
    (hcoherent : t.Coherent s) (hfits : t.base + t.rep.stateSize ≤ s.size)
    (hlt : offset < Word.largest) : ∃ st, t.Tracks s st ∧ st.Fits offset := by
  unfold isConsistent at h
  simp only [Bool.and_eq_true, decide_eq_true_iff] at h
  obtain ⟨⟨⟨⟨hend, hopen⟩, hlength⟩, hpending⟩, -⟩ := h
  have hle : (t.runEnd? s).getD 0 ≤ offset := by
    rcases he : t.runEnd? s with _ | e
    · exact Nat.zero_le _
    · rw [he] at hend
      exact of_decide_eq_true hend
  obtain ⟨pending, hread, hends⟩ : ∃ pending, t.pending? s = .ok pending ∧
      ∀ m, pending = some m → t.pendingEnd? s = some m.endsAt := by
    unfold pending?
    rcases hp : t.pendingEnd? s with _ | e
    · exact ⟨none, rfl, fun m hm => by cases hm⟩
    · rw [hp] at hpending
      have hsub := (of_decide_eq_true hpending).2
      refine ⟨some ⟨e - s.readWord (t.base + 16), e, s.readNumber (t.base + 24) 4⟩, ?_, ?_⟩
      · simp only [Word.sub_eq_ok hsub, Checked.ok_bind, Checked.pure_eq]
      · rintro m ⟨⟩
        rfl
  refine ⟨⟨t.runEnd? s, t.runLength s, pending⟩,
    ⟨hfits, rfl, hlength, Nat.lt_of_le_of_lt hle hlt, hcoherent.counts, hread⟩,
    hle, hopen, fun m hm => hcoherent.pending _ (hends m hm)⟩

/-- A state of `b{1,2}` that is accepted after `bb`. The run cannot be closed, since the match
of another one is pending. -/
example :
    let t : Tracker := ⟨⟨⟨0⟩, ⟨0⟩, .single 98, 1, .finite 2, .bitmap, #[]⟩, 0⟩
    let s : Bytes := .ofList [3, 0, 0, 0, 0, 0, 0, 0, 2, 0, 0, 0, 0, 0, 0, 0, 1, 0, 0, 0, 0, 0, 0,
      0, 0, 0, 0, 0, 0, 0, 0, 0, 3, 0, 0, 0, 0, 0, 0, 0]
    t.isConsistent s 2 = true ∧ (t.close s 0).toOption.isNone = true := by
  decide +kernel

end Tracker

end StreamMatch
