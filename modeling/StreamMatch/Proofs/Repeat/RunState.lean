-- What the state of a repeat says, whatever its tracking: where the last run
-- ended, how long the run that can go on is, and which match is pending. Each
-- operation on the bytes of the state is one on these three.
import StreamMatch.Proofs.Checked
import StreamMatch.Proofs.Repeat.Encoding

namespace StreamMatch

/-- A number of repetitions is within the bounds of a repeat. -/
def Repeat.Within (r : Repeat) (n : Nat) : Prop :=
  r.least ≤ n ∧ ∀ most, r.most = .finite most → n ≤ most

theorem Repeat.accepts_iff {r : Repeat} {n : Nat} : r.accepts n = true ↔ r.Within n := by
  unfold accepts Within
  rw [Bool.and_eq_true, decide_eq_true_iff]
  refine and_congr_right fun _ => ?_
  rcases r.most with m | _
  · rw [Bound.admits_finite]
    exact ⟨fun h most heq => by cases heq; exact h, fun h => h m rfl⟩
  · exact iff_of_true rfl nofun

instance (r : Repeat) (n : Nat) : Decidable (r.Within n) := decidable_of_iff _ Repeat.accepts_iff

/-- The state of a repeat. The length is zero if no run can go on. -/
structure RunState where
  lastEnd : Option Nat
  length : Nat
  pending : Option Run
deriving DecidableEq, Repr

namespace RunState

/-- The state of a repeat that has not seen any byte of its class. -/
def start : RunState := ⟨none, 0, none⟩

/-- The current run goes on with `n` repetitions, or a run of `n` repetitions
starts. The last one ends at `last`. -/
def extend (st : RunState) (n last : Nat) : RunState := ⟨some last, st.length + n, st.pending⟩

/-- The match of the current run, if there is a run and its length is within the
bounds. -/
def current (st : RunState) (r : Repeat) (rank : Nat) : Option Run :=
  let last := st.lastEnd.getD 0
  if 0 < st.length ∧ r.Within st.length then some ⟨last - st.length, last, rank⟩ else none

theorem current_eq (st : RunState) (r : Repeat) (rank : Nat) : st.current r rank =
    if 0 < st.length ∧ r.accepts st.length = true then
      some ⟨st.lastEnd.getD 0 - st.length, st.lastEnd.getD 0, rank⟩
    else none := by
  unfold current
  simp only [Repeat.accepts_iff]

/-- The current run ends, and its match is pending if it has one. -/
def close (st : RunState) (r : Repeat) (rank : Nat) : RunState :=
  ⟨st.lastEnd, 0, (st.current r rank).or st.pending⟩

/-- The pending match is forgotten. -/
def take (st : RunState) : RunState := { st with pending := none }

end RunState

namespace Repeat

/-- The window of a repeat can be kept by its tracking. -/
structure Trackable (r : Repeat) : Prop where
  two_le_window : 2 ≤ r.window
  bitmap_fits : r.tracking = .bitmap → r.window ≤ 64
  ring_fits : r.tracking = .ring → r.window ≤ 65535

theorem window_le_largest (r : Repeat) : r.window ≤ Word.largest := by
  unfold window Bound.value? Word.largest Word.bound
  rcases r.most with n | _
  · have := n.isLt
    simp only
    omega
  · exact Nat.le_refl _

/-- A run above the window is not within the bounds, so the length that is
remembered decides as the true one does. -/
theorem accepts_min_window {r : Repeat} {n : Nat} (hn : n ≤ Word.largest) :
    r.accepts (min n r.window) = r.accepts n := by
  unfold accepts window Bound.admits Bound.value?
  rcases r.most with m | _
  · simp only
    by_cases h : n ≤ m.val
    · rw [Nat.min_eq_left (by omega)]
    · have h' : ¬ min n (m.val + 1) ≤ m.val := by omega
      simp [h, h']
  · simp only [Nat.min_eq_left hn]

theorem lt_window_of_accepts {r : Repeat} {n : Nat} (hn : n < Word.largest)
    (h : r.accepts n = true) : n < r.window := by
  unfold accepts at h
  unfold window
  rcases hm : r.most with m | _
  · rw [hm] at h
    simp only [Bool.and_eq_true, Bound.admits_finite] at h
    simp only [Bound.value?]
    omega
  · exact hn

theorem two_le_window_iff {r : Repeat} : 2 ≤ r.window ↔ r.most.value? ≠ some 0 := by
  have hlargest : 2 ≤ Word.largest := by decide
  unfold window
  rcases r.most.value? with _ | n
  · exact iff_of_true hlargest nofun
  · simp only [ne_eq, Option.some.injEq]
    omega

theorem window_le_iff {r : Repeat} {k : Nat} (hk : k + 1 < Word.largest) :
    r.window ≤ k + 1 ↔ ∃ n ≤ k, r.most.value? = some n := by
  unfold window
  rcases r.most.value? with _ | n
  · exact iff_of_false (Nat.not_le_of_lt hk) nofun
  · constructor
    · exact fun h => ⟨n, Nat.le_of_succ_le_succ h, rfl⟩
    · rintro ⟨m, hm, heq⟩
      cases heq
      exact Nat.succ_le_succ hm

/-- A tracking can keep the window of bounds that its bits or slots are enough for. -/
theorem trackable_iff {r : Repeat} : r.Trackable ↔ r.most.value? ≠ some 0 ∧
    (r.tracking = .bitmap → ∃ n ≤ 63, r.most.value? = some n) ∧
    (r.tracking = .ring → ∃ n ≤ 65534, r.most.value? = some n) := by
  rw [← two_le_window_iff, ← window_le_iff (by decide), ← window_le_iff (by decide)]
  exact ⟨fun ⟨htwo, hbitmap, hring⟩ => ⟨htwo, hbitmap, hring⟩,
    fun ⟨htwo, hbitmap, hring⟩ => ⟨htwo, hbitmap, hring⟩⟩

/-- A bitmap or a ring is chosen only for bounds up to their limit. -/
theorem bound_le_of_select {most : Bound} {settings : Settings} :
    (Tracking.select most settings = .bitmap →
      ∃ n ≤ settings.bitmapLimit, most.value? = some n) ∧
    (Tracking.select most settings = .ring → ∃ n ≤ settings.ringLimit, most.value? = some n) := by
  unfold Tracking.select
  rcases most.value? with _ | n
  · exact ⟨nofun, nofun⟩
  · simp only
    split
    · next hle => exact ⟨fun _ => ⟨n, hle, rfl⟩, nofun⟩
    · split
      · next hle => exact ⟨nofun, fun _ => ⟨n, hle, rfl⟩⟩
      · exact ⟨nofun, nofun⟩

/-- The tracking that valid settings choose can keep the window. -/
theorem trackable_of_select {r : Repeat} {settings : Settings} (hs : settings.check = .ok ())
    (hzero : r.most.value? ≠ some 0) (htracking : r.tracking = .select r.most settings) :
    r.Trackable := by
  obtain ⟨hbitmap, hring⟩ := (Settings.check_eq_ok_iff _).mp hs
  refine trackable_iff.mpr ⟨hzero, fun hk => ?_, fun hk => ?_⟩
  · obtain ⟨n, hn, hvalue⟩ := bound_le_of_select.1 (htracking.symm.trans hk)
    exact ⟨n, Nat.le_trans hn hbitmap, hvalue⟩
  · obtain ⟨n, hn, hvalue⟩ := bound_le_of_select.2 (htracking.symm.trans hk)
    exact ⟨n, Nat.le_trans hn hring, hvalue⟩

theorem stateSize_pos (r : Repeat) : 40 ≤ r.stateSize := by
  unfold stateSize
  split <;> omega

theorem stateSize_of_ring {r : Repeat} (h : r.tracking = .ring) :
    r.stateSize = 32 + 8 + 8 * r.window := by
  unfold stateSize
  rw [h]

end Repeat

namespace Tracker

open Bytes

variable {t : Tracker} {s s' : Bytes} {st : RunState}

/-- The payload of a state tells the length of a run that ends at `last`, as
far as the window goes. -/
def Counts (t : Tracker) (s : Bytes) (length last : Nat) : Prop :=
  match t.rep.tracking with
  | .bitmap => t.payload s = 1 <<< min length t.rep.window - 1
  | .counter => t.payload s = min length t.rep.window
  | .ring => t.ringCount s = min length t.rep.window ∧
      t.RingEnds s (min length t.rep.window) last

/-- The bytes of a state stand for a run state. -/
structure Tracks (t : Tracker) (s : Bytes) (st : RunState) : Prop where
  fits : t.base + t.rep.stateSize ≤ s.size
  lastEnd_eq : t.runEnd? s = st.lastEnd
  length_le : st.length ≤ st.lastEnd.getD 0
  lastEnd_lt : st.lastEnd.getD 0 < Word.largest
  counts : t.Counts s st.length (st.lastEnd.getD 0)
  pending_eq : t.pending? s = .ok st.pending

/-! ## Reading -/

theorem pending?_frame {pos len : Nat} (hs : AgreeOutside pos len s s')
    (hd : t.base + 32 ≤ pos ∨ pos + len ≤ t.base + 8) : t.pending? s' = t.pending? s := by
  unfold pending? pendingEnd?
  rw [hs.readWord_eq (by omega), hs.readWord_eq (by omega), hs.readNumber_eq (by omega)]

theorem counts_frame {pos len length last : Nat} (hs : AgreeOutside pos len s s')
    (hd : t.base + t.rep.stateSize ≤ pos ∨ pos + len ≤ t.base + 32)
    (h : t.Counts s length last) : t.Counts s' length last := by
  have hsize := t.rep.stateSize_pos
  unfold Counts at h ⊢
  rcases hk : t.rep.tracking with _ | _ | _
  · rw [hk] at h
    unfold payload at h ⊢
    rw [hs.readWord_eq (by omega)]
    exact h
  · rw [hk] at h
    unfold payload at h ⊢
    rw [hs.readWord_eq (by omega)]
    exact h
  · rw [hk] at h
    obtain ⟨hcount, hhead, hslots⟩ := h
    have hring := Repeat.stateSize_of_ring hk
    have hhead' : t.ringHead s' = t.ringHead s := by
      unfold ringHead
      rw [hs.readNumber_eq (by omega)]
    refine ⟨?_, by rwa [hhead'], ?_⟩
    · unfold ringCount at hcount ⊢
      rw [hs.readNumber_eq (by omega)]
      exact hcount
    · intro i hi
      have hlt := slotBack_lt t.rep.window (t.ringHead s) i (by omega)
      rw [hhead', ← hslots i hi]
      unfold slot
      rw [hs.readWord_eq (by omega)]

/-- A change outside of the state does not matter to it. -/
theorem Tracks.frame {pos len : Nat} (h : t.Tracks s st) (hs : AgreeOutside pos len s s')
    (hd : t.base + t.rep.stateSize ≤ pos ∨ pos + len ≤ t.base) : t.Tracks s' st := by
  have hsize := t.rep.stateSize_pos
  refine ⟨hs.size_eq ▸ h.fits, ?_, h.length_le, h.lastEnd_lt, ?_, ?_⟩
  · rw [← h.lastEnd_eq]
    unfold runEnd?
    rw [hs.readWord_eq (by omega)]
  · exact counts_frame hs (by omega) h.counts
  · exact (pending?_frame hs (by omega)).trans h.pending_eq

/-- The state depends only on its own bytes. -/
theorem Tracks.congr (h : t.Tracks s st) (hsize : s'.size = s.size)
    (hsame : ∀ i, t.base ≤ i → i < t.base + t.rep.stateSize → byteAt s' i = byteAt s i) :
    t.Tracks s' st := by
  have hfits := h.fits
  have hbefore : (s'.slice 0 t.base).size = t.base := size_slice_of_le (by omega)
  -- First the bytes before the state change, then those after it.
  have hfirst := agreeOutside_overwrite s (s'.slice 0 t.base) 0 (by omega)
  have hcopy := slice_overwrite s (s'.slice 0 t.base) 0 (by omega)
  generalize overwrite s 0 (s'.slice 0 t.base) = z at hfirst hcopy
  have hsizez := hfirst.size_eq
  rw [hbefore] at hfirst hcopy
  have hsecond : AgreeOutside (t.base + t.rep.stateSize) (s.size - (t.base + t.rep.stateSize))
      z s' := by
    refine ⟨by omega, fun i hi => ?_⟩
    rcases Nat.lt_or_ge i t.base with hlo | hlo
    · have hbyte := congrArg (byteAt · i) hcopy
      simp only [byteAt_slice hlo (show 0 + t.base ≤ z.size by omega),
        byteAt_slice hlo (show 0 + t.base ≤ s'.size by omega), Nat.zero_add] at hbyte
      exact hbyte.symm
    · rw [hfirst.same i (Or.inr (by omega))]
      rcases hi with hi | hi
      · exact hsame i hlo hi
      · rw [byteAt_of_size_le (by omega), byteAt_of_size_le (by omega)]
  exact (h.frame hfirst (Or.inr (by omega))).frame hsecond (Or.inl (by omega))

theorem Tracks.runLength_eq (h : t.Tracks s st) (hr : t.rep.Trackable) :
    t.runLength s = min st.length t.rep.window := by
  have hc := h.counts
  unfold Counts at hc
  unfold runLength
  rcases hk : t.rep.tracking with _ | _ | _
  · rw [hk] at hc
    simp only at hc ⊢
    have hw := hr.bitmap_fits hk
    rw [hc, lowOneBits_ones (by omega)]
  · rw [hk] at hc
    exact hc
  · rw [hk] at hc
    exact hc.1

theorem Tracks.isOpen_eq (h : t.Tracks s st) (hr : t.rep.Trackable) :
    t.isOpen s = decide (0 < st.length) := by
  have hw := hr.two_le_window
  unfold isOpen
  rw [h.runLength_eq hr]
  congr 1
  simp only [eq_iff_iff]
  omega

theorem Tracks.pending?_eq_some_iff (h : t.Tracks s st) {m : Run} :
    t.pending? s = .ok (some m) ↔ st.pending = some m := by
  rw [h.pending_eq, Except.ok.injEq]

theorem Tracks.length_lt (h : t.Tracks s st) : st.length < Word.largest :=
  Nat.lt_of_le_of_lt h.length_le h.lastEnd_lt

/-! ## The ring -/

theorem RingEnds.empty {last : Nat} (h : t.ringHead s < t.rep.window) : t.RingEnds s 0 last :=
  ⟨h, fun i hi => absurd hi (by omega)⟩

theorem RingEnds.newest_eq {count last : Nat} (h : t.RingEnds s count last) (hpos : 0 < count) :
    t.slot s ((t.ringHead s + t.rep.window - 1) % t.rep.window) = last :=
  h.slots 0 hpos

theorem RingEnds.oldest_eq {count last : Nat} (h : t.RingEnds s count last) (hpos : 0 < count) :
    t.slot s ((t.ringHead s + t.rep.window - count) % t.rep.window) = last - (count - 1) := by
  have hslot := h.slots (count - 1) (by omega)
  unfold slotBack at hslot
  rwa [show t.ringHead s + t.rep.window - 1 - (count - 1) =
    t.ringHead s + t.rep.window - count by omega] at hslot

theorem requireSlot_eq_ok {i : Nat} (hk : t.rep.tracking = .ring) (hi : i < t.rep.window) :
    t.requireSlot i = .ok () := by
  have hsize := Repeat.stateSize_of_ring hk
  unfold requireSlot
  rw [decide_eq_true (by omega), Checked.require_true]

theorem ringSpan_eq {count last : Nat} (hk : t.rep.tracking = .ring)
    (hcount : t.ringCount s = count) (h : t.RingEnds s count last) (hpos : 0 < count)
    (hle : count ≤ t.rep.window) : t.ringSpan s = .ok (last - (count - 1), last) := by
  have hslot : ∀ i, t.requireSlot (i % t.rep.window) = .ok () :=
    fun i => requireSlot_eq_ok hk (Nat.mod_lt _ (by omega))
  unfold ringSpan
  simp only [hslot, hcount, Checked.ok_bind,
    Word.sub_eq_ok (show count ≤ t.ringHead s + t.rep.window by omega), h.newest_eq hpos,
    h.oldest_eq hpos, Checked.pure_eq]

/-- The length that is remembered is within the bounds if the true one is. -/
theorem Tracks.isSatisfied_eq (h : t.Tracks s st) (hr : t.rep.Trackable) :
    t.isSatisfied s = .ok (t.rep.accepts st.length) := by
  have hw := hr.two_le_window
  have hlt := h.length_lt
  unfold isSatisfied
  simp only [h.runLength_eq hr,
    Repeat.accepts_min_window (show st.length ≤ Word.largest by omega)]
  by_cases ha : t.rep.accepts st.length = true
  · have hlen := Repeat.lt_window_of_accepts hlt ha
    rw [ha, Nat.min_eq_left (by omega)]
    by_cases hring : t.rep.tracking = .ring ∧ 0 < st.length
    · have hc := h.counts
      unfold Counts at hc
      rw [hring.1] at hc
      rw [Nat.min_eq_left (by omega)] at hc
      obtain ⟨hcount, hends⟩ := hc
      have hle := h.length_le
      rw [ringSpan_eq hring.1 hcount hends hring.2 (by omega)]
      simp only [hring, Checked.ok_bind, Bool.not_true, Bool.false_eq_true, if_false, and_self,
        if_true, Word.sub_eq_ok (Nat.sub_le _ _), Checked.pure_eq, Except.ok.injEq, beq_iff_eq]
      omega
    · simp [hring, Checked.pure_eq]
  · simp [ha, Checked.pure_eq]

/-! ## Putting offsets in the ring -/

theorem push_spec {count last : Nat} (hk : t.rep.tracking = .ring) (hw : t.rep.window ≤ 65535)
    (hfits : t.base + t.rep.stateSize ≤ s.size) (hc : count ≤ t.rep.window)
    (hr : t.RingEnds s count last) (hlast : last + 1 < Word.bound) :
    ∃ s', t.push s (last + 1) = .ok s' ∧
      AgreeOutside (t.base + 32) (t.rep.stateSize - 32) s s' ∧
      t.ringCount s' = min (t.ringCount s + 1) t.rep.window ∧
      t.RingEnds s' (min (count + 1) t.rep.window) (last + 1) := by
  obtain ⟨hhead, hslots⟩ := hr
  have hsize := Repeat.stateSize_of_ring hk
  unfold push
  simp only [requireSlot_eq_ok hk hhead, Checked.ok_bind]
  -- The slot, the count and the head are written one after the other.
  have a₁ := agreeOutside_writeNumber s (t.base + 40 + 8 * t.ringHead s) 8 (last + 1)
  have w₁ := readWord_writeNumber s (t.base + 40 + 8 * t.ringHead s) (last + 1) (by omega) hlast
  generalize writeNumber s (t.base + 40 + 8 * t.ringHead s) 8 (last + 1) = s₁ at *
  have hs₁ := a₁.size_eq
  have a₂ := agreeOutside_writeNumber s₁ (t.base + 32) 2 (min (t.ringCount s + 1) t.rep.window)
  have w₂ := readNumber_writeNumber s₁ (t.base + 32) 2 (min (t.ringCount s + 1) t.rep.window)
    (by omega)
  generalize writeNumber s₁ (t.base + 32) 2 (min (t.ringCount s + 1) t.rep.window) = s₂ at *
  have hs₂ := a₂.size_eq
  have hnext : (t.ringHead s + 1) % t.rep.window < t.rep.window := Nat.mod_lt _ (by omega)
  have a₃ := agreeOutside_writeNumber s₂ (t.base + 34) 2 ((t.ringHead s + 1) % t.rep.window)
  have w₃ := readNumber_writeNumber s₂ (t.base + 34) 2 ((t.ringHead s + 1) % t.rep.window)
    (by omega)
  generalize writeNumber s₂ (t.base + 34) 2 ((t.ringHead s + 1) % t.rep.window) = s₃ at *
  have hpow : 1 <<< (8 * 2) = 65536 := rfl
  rw [hpow, Nat.mod_eq_of_lt (by omega)] at w₂ w₃
  have hhead₃ : t.ringHead s₃ = (t.ringHead s + 1) % t.rep.window := w₃
  refine ⟨s₃, rfl, ?_, ?_, ?_, ?_⟩
  · exact ((a₁.mono (by omega) (by omega)).trans (a₂.mono (by omega) (by omega))).trans
      (a₃.mono (by omega) (by omega))
  · unfold ringCount
    rw [a₃.readNumber_eq (by omega), w₂, ringCount]
  · rw [hhead₃]
    exact hnext
  · intro i hi
    have hframe : ∀ j, t.slot s₃ j = t.slot s₁ j := by
      intro j
      unfold slot
      rw [a₃.readWord_eq (by omega), a₂.readWord_eq (by omega)]
    rw [hhead₃, hframe]
    cases i with
    | zero =>
      rw [slotBack_next_zero hhead]
      exact w₁
    | succ i =>
      have hne := slotBack_ne (i := i) hhead (by omega)
      rw [slotBack_next_succ hhead (by omega), Nat.add_sub_add_right, ← hslots i (by omega)]
      unfold slot
      rw [a₁.readWord_eq (by omega)]

theorem pushRange_spec {count : Nat} (last n : Nat) (hk : t.rep.tracking = .ring)
    (hw : t.rep.window ≤ 65535) (hfits : t.base + t.rep.stateSize ≤ s.size)
    (hc : count ≤ t.rep.window)
    (hcount : t.ringCount s ≤ t.rep.window) (hr : t.RingEnds s count last)
    (hlast : last + n < Word.bound) :
    ∃ s', t.pushRange s (last + 1) n = .ok s' ∧
      AgreeOutside (t.base + 32) (t.rep.stateSize - 32) s s' ∧
      t.ringCount s' = min (t.ringCount s + n) t.rep.window ∧
      t.RingEnds s' (min (count + n) t.rep.window) (last + n) := by
  induction n generalizing s count last with
  | zero =>
    refine ⟨s, rfl, AgreeOutside.refl _ _ _, by omega, ?_⟩
    rwa [Nat.add_zero, Nat.add_zero, Nat.min_eq_left hc]
  | succ n ih =>
    obtain ⟨s₁, h₁, a₁, c₁, r₁⟩ := push_spec hk hw hfits hc hr (by omega)
    have hfits₁ := hfits
    rw [← a₁.size_eq] at hfits₁
    obtain ⟨s₂, h₂, a₂, c₂, r₂⟩ :=
      ih (last + 1) hfits₁ (Nat.min_le_right _ _) (by omega) r₁ (by omega)
    refine ⟨s₂, ?_, a₁.trans a₂, by omega, ?_⟩
    · unfold pushRange
      rw [h₁, Checked.ok_bind]
      exact h₂
    · rw [show min (min (count + 1) t.rep.window + n) t.rep.window =
        min (count + (n + 1)) t.rep.window by omega] at r₂
      rwa [show last + (n + 1) = last + 1 + n by omega]

/-- The last of `n` consecutive offsets up to `last` are put in the ring, as many as it has
slots for. -/
theorem pushRange_min_spec {n last length lastEnd : Nat} (hk : t.rep.tracking = .ring)
    (hwindow : t.rep.window ≤ 65535) (hfits : t.base + t.rep.stateSize ≤ s.size)
    (hcount : t.ringCount s = min length t.rep.window)
    (hends : t.RingEnds s (min length t.rep.window) lastEnd) (hle : n ≤ last)
    (hlt : last < Word.bound) (hopen : 0 < length → lastEnd + n = last) :
    ∃ s', t.pushRange s (last - min n t.rep.window + 1) (min n t.rep.window) = .ok s' ∧
      AgreeOutside (t.base + 32) (t.rep.stateSize - 32) s s' ∧
      t.ringCount s' = min (length + n) t.rep.window ∧
      t.RingEnds s' (min (length + n) t.rep.window) last := by
  by_cases hn : n < t.rep.window
  · -- The offsets go on from those that the ring holds.
    have hends' : t.RingEnds s (min length t.rep.window) (last - n) := by
      rcases Nat.eq_zero_or_pos length with hz | hp
      · rw [hz, Nat.zero_min]
        exact RingEnds.empty hends.head_lt
      · rwa [show last - n = lastEnd by have := hopen hp; omega]
    obtain ⟨s', h', a', c', r'⟩ := pushRange_spec (last - n) n hk hwindow hfits
      (Nat.min_le_right _ _) (by omega) hends' (by omega)
    rw [Nat.min_eq_left (by omega)]
    refine ⟨s', h', a', by omega, ?_⟩
    rwa [show min (min length t.rep.window + n) t.rep.window =
      min (length + n) t.rep.window by omega, show last - n + n = last by omega] at r'
  · -- The whole ring is replaced.
    obtain ⟨s', h', a', c', r'⟩ := pushRange_spec (last - t.rep.window) t.rep.window hk hwindow
      hfits (Nat.zero_le _) (by omega) (RingEnds.empty hends.head_lt) (by omega)
    rw [Nat.min_eq_right (by omega)]
    refine ⟨s', h', a', by omega, ?_⟩
    rwa [Nat.zero_add, show min t.rep.window t.rep.window =
      min (length + n) t.rep.window by omega,
      show last - t.rep.window + t.rep.window = last by omega] at r'

/-! ## Extending a run -/

theorem countSteps_spec {n last : Nat} (h : t.Tracks s st) (hr : t.rep.Trackable)
    (hle : n ≤ last) (hlt : last < Word.largest)
    (hopen : 0 < st.length → st.lastEnd.getD 0 + n = last) :
    ∃ s', t.countSteps s n last = .ok s' ∧
      AgreeOutside (t.base + 32) (t.rep.stateSize - 32) s s' ∧
      t.Counts s' (st.length + n) last := by
  have hfits := h.fits
  have hpos := t.rep.stateSize_pos
  have hw := hr.two_le_window
  have hlength := h.length_le
  have hc := h.counts
  unfold Counts at hc
  unfold countSteps Counts
  rcases hk : t.rep.tracking with _ | _ | _
  · rw [hk] at hc
    have hwindow := hr.bitmap_fits hk
    simp only at hc ⊢
    rw [hc, shiftIn_ones (Nat.min_le_right _ _) hwindow]
    refine ⟨_, rfl, ?_, ?_⟩
    · exact (agreeOutside_writeNumber _ _ _ _).mono (Nat.le_refl _) (by omega)
    · unfold payload
      rw [readWord_writeNumber _ _ _ (by omega) (ones_lt (by omega)),
        show min (min st.length t.rep.window + n) t.rep.window =
          min (st.length + n) t.rep.window by omega]
  · rw [hk] at hc
    have hwindow := t.rep.window_le_largest
    have hbound : Word.largest < Word.bound := by decide
    simp only at hc ⊢
    rw [hc]
    refine ⟨_, rfl, ?_, ?_⟩
    · exact (agreeOutside_writeNumber _ _ _ _).mono (Nat.le_refl _) (by omega)
    · unfold payload Word.addSat
      rw [readWord_writeNumber _ _ _ (by omega) (by omega)]
      omega
  · rw [hk] at hc
    obtain ⟨hcount, hends⟩ := hc
    have hbound : Word.largest < Word.bound := by decide
    obtain ⟨s', hpush, hagree, hcount', hends'⟩ := pushRange_min_spec hk (hr.ring_fits hk) hfits
      hcount hends hle (Nat.lt_trans hlt hbound) hopen
    simp only
    rw [Word.sub_eq_ok (by omega), Checked.ok_bind]
    exact ⟨s', hpush, hagree, hcount', hends'⟩

theorem extend_spec {n last : Nat} (h : t.Tracks s st) (hr : t.rep.Trackable) (hn : 0 < n)
    (hle : n ≤ last) (hlt : last < Word.largest)
    (hopen : 0 < st.length → st.lastEnd.getD 0 + n = last) :
    ∃ s', t.extend s n last = .ok s' ∧ AgreeOutside t.base t.rep.stateSize s s' ∧
      t.Tracks s' (st.extend n last) := by
  have hpos := t.rep.stateSize_pos
  have hfits := h.fits
  have hlength := h.length_le
  have hbound : Word.largest + 1 = Word.bound := by decide
  obtain ⟨s₁, h₁, a₁, c₁⟩ := countSteps_spec h hr hle hlt hopen
  have hs₁ := a₁.size_eq
  have a₂ := agreeOutside_writeNumber s₁ t.base 8 (last + 1)
  have w₂ := readWord_writeNumber s₁ t.base (last + 1) (by omega)
    (by omega)
  refine ⟨s₁.writeNumber t.base 8 (last + 1), ?_, ?_, ?_⟩
  · unfold extend
    rw [h.isOpen_eq hr, if_neg (by omega), h.lastEnd_eq]
    by_cases ho : 0 < st.length
    · have hlast := hopen ho
      rcases he : st.lastEnd with _ | e
      · rw [he, Option.getD_none] at hlength
        omega
      · rw [he, Option.getD_some] at hlast
        simp [ho, Word.add_eq_ok (show e + n < Word.bound by omega),
          Word.add_eq_ok (show last + 1 < Word.bound by omega), hlast, Checked.require_true, h₁,
          Checked.pure_eq]
    · simp [ho, Word.add_eq_ok (show last + 1 < Word.bound by omega), h₁, Checked.pure_eq]
  · exact (a₁.mono (by omega) (by omega)).trans (a₂.mono (by omega) (by omega))
  · refine ⟨by rw [writeNumber_size]; omega, ?_, ?_, hlt, ?_, ?_⟩
    · unfold runEnd?
      rw [w₂]
      rfl
    · unfold RunState.extend
      simp only [Option.getD_some]
      omega
    · unfold RunState.extend
      simp only [Option.getD_some]
      exact counts_frame a₂ (by omega) c₁
    · rw [pending?_frame a₂ (by omega), pending?_frame a₁ (by omega)]
      exact h.pending_eq

/-! ## Closing a run -/

/-- A payload of zeros counts nothing. -/
theorem counts_clear {len last : Nat} (hw : 0 < t.rep.window)
    (hlen : len = t.rep.stateSize - 32) : t.Counts (s.clear (t.base + 32) len) 0 last := by
  have hsize := t.rep.stateSize_pos
  unfold Counts
  rcases hk : t.rep.tracking with _ | _ | _
  · simp only [Nat.zero_min]
    exact readWord_clear (by omega)
  · simp only [Nat.zero_min]
    exact readWord_clear (by omega)
  · simp only [Nat.zero_min]
    refine ⟨readNumber_clear (by omega), RingEnds.empty ?_⟩
    rw [show t.ringHead (s.clear (t.base + 32) len) = 0 from readNumber_clear (by omega)]
    exact hw

/-- The three numbers of a pending match are read back. -/
theorem pending?_write {last length rank : Nat} (hfits : t.base + 32 ≤ s.size)
    (hle : length ≤ last) (hlast : last + 1 < Word.bound) (hrank : rank < 0x100000000) :
    ∃ s', writeNumber (writeNumber (writeNumber s (t.base + 8) 8 (last + 1)) (t.base + 16) 8
        length) (t.base + 24) 4 rank = s' ∧
      AgreeOutside (t.base + 8) 20 s s' ∧
      t.pending? s' = .ok (some ⟨last - length, last, rank⟩) := by
  have a₁ := agreeOutside_writeNumber s (t.base + 8) 8 (last + 1)
  have w₁ := readWord_writeNumber s (t.base + 8) (last + 1) (by omega) hlast
  generalize writeNumber s (t.base + 8) 8 (last + 1) = s₁ at *
  have z₁ := a₁.size_eq
  have a₂ := agreeOutside_writeNumber s₁ (t.base + 16) 8 length
  have w₂ := readWord_writeNumber s₁ (t.base + 16) length (by omega) (by omega)
  generalize writeNumber s₁ (t.base + 16) 8 length = s₂ at *
  have z₂ := a₂.size_eq
  have a₃ := agreeOutside_writeNumber s₂ (t.base + 24) 4 rank
  have w₃ := readNumber_writeNumber s₂ (t.base + 24) 4 rank (by omega)
  have hpow : 1 <<< (8 * 4) = 0x100000000 := rfl
  rw [hpow, Nat.mod_eq_of_lt hrank] at w₃
  refine ⟨_, rfl, ?_, ?_⟩
  · exact ((a₁.mono (by omega) (by omega)).trans (a₂.mono (by omega) (by omega))).trans
      (a₃.mono (by omega) (by omega))
  · unfold pending? pendingEnd?
    rw [a₃.readWord_eq (by omega), a₂.readWord_eq (by omega), w₁, a₃.readWord_eq (by omega), w₂,
      w₃]
    simp [predecessor?, Word.sub_eq_ok hle, Checked.pure_eq]

/-- After a run was closed nothing is counted. -/
theorem tracks_clear {s' : Bytes} {pending : Option Run} (h : t.Tracks s st)
    (hr : t.rep.Trackable) (hs : AgreeOutside (t.base + 8) 20 s s')
    (hpending : t.pending? s' = .ok pending) :
    AgreeOutside t.base t.rep.stateSize s (s'.clear (t.base + 32) (t.rep.stateSize - 32)) ∧
      t.Tracks (s'.clear (t.base + 32) (t.rep.stateSize - 32)) ⟨st.lastEnd, 0, pending⟩ := by
  have hpos := t.rep.stateSize_pos
  have hfits := h.fits
  have hw := hr.two_le_window
  have hsize := hs.size_eq
  have a := agreeOutside_clear s' (t.base + 32) (t.rep.stateSize - 32)
  refine ⟨(hs.mono (by omega) (by omega)).trans (a.mono (by omega) (by omega)), ?_⟩
  refine ⟨by rw [clear_size]; omega, ?_, Nat.zero_le _, h.lastEnd_lt, counts_clear (by omega) rfl,
    ?_⟩
  · rw [← h.lastEnd_eq]
    unfold runEnd?
    rw [a.readWord_eq (by omega), hs.readWord_eq (by omega)]
  · rw [pending?_frame a (by omega)]
    exact hpending

theorem close_of_length_eq_zero (h : t.Tracks s st) (hr : t.rep.Trackable) (hz : st.length = 0)
    (rank : Nat) : t.close s rank = .ok (s, none) := by
  unfold close
  rw [h.isOpen_eq hr, hz]
  rfl

theorem close_spec {rank : Nat} (h : t.Tracks s st) (hr : t.rep.Trackable)
    (hrank : rank < 0x100000000)
    (hpending : (st.current t.rep rank).isSome → st.pending = none) :
    ∃ s', t.close s rank = .ok (s', st.current t.rep rank) ∧
      AgreeOutside t.base t.rep.stateSize s s' ∧ t.Tracks s' (st.close t.rep rank) := by
  have hpos := t.rep.stateSize_pos
  have hfits := h.fits
  have hlength := h.length_le
  have hlast := h.lastEnd_lt
  have hbound : Word.largest + 1 = Word.bound := by decide
  unfold RunState.close
  rw [RunState.current_eq] at hpending ⊢
  by_cases ho : 0 < st.length
  · rcases he : st.lastEnd with _ | e
    · rw [he, Option.getD_none] at hlength
      omega
    · rw [he] at hlength hlast hpending
      simp only [Option.getD_some] at hlength hlast hpending ⊢
      have hopen : t.isOpen s = true := by rw [h.isOpen_eq hr, decide_eq_true ho]
      by_cases ha : t.rep.accepts st.length = true
      · -- The match is written in the three fields of the pending match.
        rw [if_pos ⟨ho, ha⟩] at hpending ⊢
        have hnone := hpending rfl
        have hlen : t.runLength s = st.length := by
          rw [h.runLength_eq hr]
          have := Repeat.lt_window_of_accepts h.length_lt ha
          omega
        obtain ⟨s', hwrite, hagree, hread⟩ :=
          pending?_write (t := t) (s := s) (by omega) hlength (by omega) hrank
        obtain ⟨hframe, htracks⟩ := tracks_clear h hr hagree hread
        rw [he] at htracks
        refine ⟨_, ?_, hframe, htracks⟩
        unfold close
        simp [hopen, h.lastEnd_eq, he, h.isSatisfied_eq hr, ha, h.pending_eq, hnone, hlen,
          Checked.require_true, Word.sub_eq_ok hlength, Checked.pure_eq, hwrite]
      · rw [if_neg (by simp [ha])] at hpending ⊢
        obtain ⟨hframe, htracks⟩ := tracks_clear h hr (AgreeOutside.refl _ _ s) h.pending_eq
        rw [he] at htracks
        refine ⟨_, ?_, hframe, htracks⟩
        unfold close
        simp [hopen, h.lastEnd_eq, he, h.isSatisfied_eq hr, ha, Checked.pure_eq]
  · have hz : st.length = 0 := by omega
    rw [if_neg (by omega)]
    refine ⟨s, close_of_length_eq_zero h hr hz rank, AgreeOutside.refl _ _ _, ?_⟩
    have hst : (⟨st.lastEnd, 0, Option.or none st.pending⟩ : RunState) = st := by
      cases st
      simp_all
    rwa [hst]

/-! ## The pending match -/

theorem take_spec (h : t.Tracks s st) :
    ∃ s', t.take s = .ok (s', st.pending) ∧ AgreeOutside t.base t.rep.stateSize s s' ∧
      t.Tracks s' st.take := by
  have hpos := t.rep.stateSize_pos
  have hfits := h.fits
  have a := agreeOutside_clear s (t.base + 8) 24
  refine ⟨s.clear (t.base + 8) 24, ?_, a.mono (by omega) (by omega), ?_⟩
  · unfold take
    simp [h.pending_eq, Checked.pure_eq]
  · refine ⟨by rw [clear_size]; omega, ?_, h.length_le, h.lastEnd_lt,
      counts_frame a (by omega) h.counts, ?_⟩
    · rw [RunState.take, ← h.lastEnd_eq]
      unfold runEnd?
      rw [a.readWord_eq (by omega)]
    · unfold pending? pendingEnd?
      rw [readWord_clear (by omega)]
      rfl

/-- A state of zeros is the first state. -/
theorem tracks_of_zeros (hfits : t.base + t.rep.stateSize ≤ s.size) (hr : t.rep.Trackable)
    (hz : ∀ i, t.base ≤ i → i < t.base + t.rep.stateSize → byteAt s i = 0) :
    t.Tracks s .start := by
  have hpos := t.rep.stateSize_pos
  have hw := hr.two_le_window
  have hword : ∀ i, t.base ≤ i → i + 8 ≤ t.base + t.rep.stateSize → readWord s i = 0 := by
    intro i hi hi'
    rw [readWord_eq]
    exact readNumber_eq_zero fun j hj => hz (i + j) (by omega) (by omega)
  have hshort : ∀ i, t.base ≤ i → i + 2 ≤ t.base + t.rep.stateSize → readNumber s i 2 = 0 :=
    fun i hi hi' => readNumber_eq_zero fun j hj => hz (i + j) (by omega) (by omega)
  refine ⟨hfits, ?_, Nat.le_refl _, by decide, ?_, ?_⟩
  · unfold runEnd?
    rw [hword _ (by omega) (by omega)]
    rfl
  · unfold Counts
    rcases hk : t.rep.tracking with _ | _ | _
    · simp only [RunState.start, Nat.zero_min]
      exact hword _ (by omega) (by omega)
    · simp only [RunState.start, Nat.zero_min]
      exact hword _ (by omega) (by omega)
    · simp only [RunState.start, Nat.zero_min]
      refine ⟨hshort _ (by omega) (by omega), RingEnds.empty ?_⟩
      rw [show t.ringHead s = 0 from hshort _ (by omega) (by omega)]
      omega
  · unfold pending? pendingEnd?
    rw [hword _ (by omega) (by omega)]
    rfl

/-! ## Consistent states -/

/-- The state of a repeat is consistent with every offset that its runs and its
pending match are not after, if a run that can go on ends there. -/
theorem isConsistent_of_tracks {offset : Nat} (h : t.Tracks s st) (hr : t.rep.Trackable)
    (hlast : ∀ e, st.lastEnd = some e → e ≤ offset)
    (hopen : 0 < st.length → st.lastEnd = some offset)
    (hpending : ∀ m, st.pending = some m → m.endsAt ≤ offset) :
    t.isConsistent s offset = true := by
  have hw := hr.two_le_window
  have hlength := h.length_le
  have hp := h.pending_eq
  unfold pending? at hp
  unfold isConsistent
  rw [h.runLength_eq hr, h.lastEnd_eq]
  simp only [Bool.and_eq_true, decide_eq_true_iff]
  refine ⟨⟨⟨⟨?_, ?_⟩, by omega⟩, ?_⟩, ?_⟩
  · rcases he : st.lastEnd with _ | e
    · rfl
    · exact decide_eq_true (hlast e he)
  · exact fun hpos => hopen (by omega)
  · rcases hpe : t.pendingEnd? s with _ | e
    · rfl
    · rw [hpe] at hp
      by_cases hle : readWord s (t.base + 16) ≤ e
      · simp only [Word.sub_eq_ok hle, Checked.ok_bind, Checked.pure_eq, Except.ok.injEq] at hp
        exact decide_eq_true ⟨hpending _ hp.symm, hle⟩
      · simp [Word.sub, hle, bind, Except.bind] at hp
  · have hc := h.counts
    unfold Counts at hc
    rcases hk : t.rep.tracking with _ | _ | _
    · rw [hk] at hc
      simp only at hc ⊢
      refine decide_eq_true (Or.inr ?_)
      rw [hc, Nat.shiftRight_eq_div_pow]
      refine Nat.div_eq_of_lt ?_
      have hle : 2 ^ min st.length t.rep.window ≤ 2 ^ t.rep.window :=
        Nat.pow_le_pow_right (by omega) (Nat.min_le_right _ _)
      have hpos := Nat.two_pow_pos (min st.length t.rep.window)
      rw [Nat.one_shiftLeft]
      omega
    · exact decide_eq_true (Nat.min_le_right _ _)
    · rw [hk] at hc
      obtain ⟨-, hends⟩ := hc
      have hhead := hends.head_lt
      simp only
      rw [if_neg (by omega)]
      by_cases hz : min st.length t.rep.window = 0
      · rw [if_pos hz]
      · have hlastEnd := hopen (by omega)
        rw [hlastEnd, Option.getD_some] at hlength
        rw [if_neg hz, hends.newest_eq (by omega), hends.oldest_eq (by omega), hlastEnd,
          Option.getD_some]
        exact decide_eq_true ⟨by omega, by omega, rfl⟩

/-- Whatever the bytes of a state are, the slots of its ring that are compared are inside of
it. -/
theorem isConsistentWithin_eq (t : Tracker) (s : Bytes) (offset : Nat) :
    t.isConsistentWithin s offset = .ok (t.isConsistent s offset) := by
  unfold isConsistentWithin
  dsimp only
  split
  case isFalse => rfl
  case isTrue h =>
    obtain ⟨hk, hhead, hle, -⟩ := h
    have hslot : ∀ i, t.requireSlot (i % t.rep.window) = .ok () :=
      fun i => requireSlot_eq_ok hk (Nat.mod_lt _ (by omega))
    unfold ringSpan
    simp only [hslot, Checked.ok_bind, Checked.pure_eq,
      Word.sub_eq_ok (show t.ringCount s ≤ t.ringHead s + t.rep.window by omega)]

end Tracker

end StreamMatch
