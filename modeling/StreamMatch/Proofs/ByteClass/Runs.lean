-- Maximal runs of a byte class in a stream. Each byte of the class is in one of
-- them, and between two of them there is a byte that is not in the class.
import StreamMatch.Proofs.ByteClass.Leading

namespace StreamMatch.ByteClass

open Bytes

/-- The bytes in `[first, stop)` of a stream are in a class, and the bytes
around them are not. -/
structure IsRun (c : ByteClass) (stream : Bytes) (first stop : Nat) : Prop where
  lt : first < stop
  le_size : stop ≤ stream.size
  inside : ∀ i, first ≤ i → i < stop → c.contains (byteAt stream i) = true
  before : 0 < first → c.contains (byteAt stream (first - 1)) = false
  after : stop < stream.size → c.contains (byteAt stream stop) = false

variable {c : ByteClass} {stream : Bytes} {first stop first' stop' i limit last : Nat}

theorem isRun_iff : c.IsRun stream first stop ↔
    first < stop ∧ stop ≤ stream.size ∧
      (∀ i, i < stop → first ≤ i → c.contains (byteAt stream i) = true) ∧
      (0 < first → c.contains (byteAt stream (first - 1)) = false) ∧
      (stop < stream.size → c.contains (byteAt stream stop) = false) := by
  constructor
  · rintro ⟨hlt, hle, hin, hbefore, hafter⟩
    exact ⟨hlt, hle, fun i hi hf => hin i hf hi, hbefore, hafter⟩
  · rintro ⟨hlt, hle, hin, hbefore, hafter⟩
    exact ⟨hlt, hle, fun i hf hi => hin i hi hf, hbefore, hafter⟩

instance (c : ByteClass) (stream : Bytes) (first stop : Nat) :
    Decidable (c.IsRun stream first stop) := decidable_of_iff _ isRun_iff.symm

/-- Bytes of the class before an offset go back to a byte where a run starts. -/
theorem exists_first (h : c.contains (byteAt stream i) = true) :
    ∃ first, first ≤ i ∧ (∀ k, first ≤ k → k ≤ i → c.contains (byteAt stream k) = true) ∧
      (0 < first → c.contains (byteAt stream (first - 1)) = false) := by
  induction i with
  | zero =>
    refine ⟨0, Nat.le_refl 0, ?_, fun h0 => absurd h0 (by omega)⟩
    intro k _ hk
    obtain rfl : k = 0 := by omega
    exact h
  | succ i ih =>
    rcases hb : c.contains (byteAt stream i) with _ | _
    · refine ⟨i + 1, Nat.le_refl _, ?_, fun _ => hb⟩
      intro k hk hk'
      obtain rfl : k = i + 1 := by omega
      exact h
    · obtain ⟨first, hle, hin, hbefore⟩ := ih hb
      refine ⟨first, by omega, ?_, hbefore⟩
      intro k hk hk'
      by_cases he : k = i + 1
      · rw [he]
        exact h
      · exact hin k hk (by omega)

/-- Each byte of the class is in a run. -/
theorem exists_isRun (hi : i < stream.size) (h : c.contains (byteAt stream i) = true) :
    ∃ first stop, c.IsRun stream first stop ∧ first ≤ i ∧ i < stop := by
  obtain ⟨first, hle, hin, hbefore⟩ := exists_first h
  obtain ⟨stop, hstop⟩ : ∃ stop, c.StopsAt stream stream.size i stop :=
    ⟨_, scanFrom_stopsAt (Nat.le_of_lt hi)⟩
  have hlt : i < stop := by
    refine Nat.lt_of_le_of_ne hstop.le_stop ?_
    rintro rfl
    have hout := hstop.outside hi
    simp [h] at hout
  refine ⟨first, stop, ⟨by omega, hstop.stop_le, ?_, hbefore, hstop.outside⟩, hle, hlt⟩
  intro k hk hlt
  by_cases hki : k ≤ i
  · exact hin k hk hki
  · exact hstop.inside k (by omega) hlt

namespace IsRun

/-- A run that starts before another one ends before it, with a byte between
them. -/
theorem stop_lt (h : c.IsRun stream first stop) (h' : c.IsRun stream first' stop')
    (hlt : first < first') : stop < first' := by
  have hlt' := h'.lt
  have hle' := h'.le_size
  refine Nat.lt_of_le_of_ne ?_ ?_
  · refine Nat.le_of_not_lt fun hcontra => ?_
    have hin := h.inside (first' - 1) (by omega) (by omega)
    rw [h'.before (by omega)] at hin
    cases hin
  · rintro rfl
    have hin := h'.inside stop (Nat.le_refl _) hlt'
    rw [h.after (by omega)] at hin
    cases hin

/-- Runs with a common byte are the same. -/
theorem eq_of_mem (h : c.IsRun stream first stop) (h' : c.IsRun stream first' stop')
    (hi : first ≤ i ∧ i < stop) (hi' : first' ≤ i ∧ i < stop') :
    first = first' ∧ stop = stop' := by
  have hfirst : first = first' := by
    rcases Nat.lt_trichotomy first first' with hlt | heq | hlt
    · have := h.stop_lt h' hlt
      omega
    · exact heq
    · have := h'.stop_lt h hlt
      omega
  refine ⟨hfirst, ?_⟩
  subst hfirst
  rcases Nat.lt_trichotomy stop stop' with hlt | heq | hlt
  · have hin := h'.inside stop (by omega) hlt
    have hle := h'.le_size
    rw [h.after (by omega)] at hin
    cases hin
  · exact heq
  · have hin := h.inside stop' (by omega) hlt
    have hle := h.le_size
    rw [h'.after (by omega)] at hin
    cases hin

/-- The bytes before an offset show a run up to its end, or up to the offset. -/
theorem min_eq (h : c.IsRun stream first stop) (hs : c.StopsAt stream limit i last)
    (hi : first ≤ i ∧ i ≤ stop) (hlimit : limit ≤ stream.size) : last = min stop limit := by
  have hle := hs.le_stop
  have hle' := hs.stop_le
  have hnot : ¬(last < stop ∧ last < limit) := by
    rintro ⟨hlt, hlt'⟩
    have hout := hs.outside hlt'
    rw [h.inside last (by omega) hlt] at hout
    cases hout
  have hnot' : ¬stop < last := by
    intro hlt
    have hin := hs.inside stop hi.2 hlt
    rw [h.after (by omega)] at hin
    cases hin
  omega

end IsRun

end StreamMatch.ByteClass
