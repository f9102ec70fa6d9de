-- How a number of repetitions is encoded: as the low bits of a bitmap, as a
-- counter, or as the newest slots of a ring. All three stop at the window.
import StreamMatch.Proofs.Bytes.Fields
import StreamMatch.Repeat.Tracker

namespace StreamMatch

/-! ## Bits -/

theorem lowOneBits_ones {width k : Nat} (h : k ≤ width) : lowOneBits width (1 <<< k - 1) = k := by
  induction width generalizing k with
  | zero =>
    have hk : k = 0 := by omega
    subst hk
    rfl
  | succ width ih =>
    rw [lowOneBits]
    cases k with
    | zero => rfl
    | succ k =>
      have hp : 0 < 1 <<< k := by rw [Nat.one_shiftLeft]; exact Nat.two_pow_pos k
      have hs : 1 <<< (k + 1) = 2 * 1 <<< k := by
        rw [Nat.one_shiftLeft, Nat.one_shiftLeft, Nat.pow_succ, Nat.mul_comm]
      rw [hs, if_pos (by omega), show (2 * 1 <<< k - 1) / 2 = 1 <<< k - 1 by omega, ih (by omega)]

theorem testBit_ones (k i : Nat) : (1 <<< k - 1).testBit i = decide (i < k) := by
  rw [Nat.one_shiftLeft, Nat.testBit_two_pow_sub_one]

theorem ones_lt {k : Nat} (h : k ≤ 64) : 1 <<< k - 1 < Word.bound := by
  have hp : 1 <<< k ≤ 1 <<< 64 := by
    rw [Nat.one_shiftLeft, Nat.one_shiftLeft]
    exact Nat.pow_le_pow_right (by omega) h
  have hb : Word.bound = 1 <<< 64 := rfl
  have hk : 0 < 1 <<< k := by rw [Nat.one_shiftLeft]; exact Nat.two_pow_pos k
  omega

namespace Tracker

open Bytes

/-- More steps in the class set more of the low bits, up to the window. -/
theorem shiftIn_ones {window a n : Nat} (ha : a ≤ window) (hw : window ≤ 64) :
    shiftIn window (1 <<< a - 1) n = 1 <<< min (a + n) window - 1 := by
  have hall : Word.largest = 1 <<< 64 - 1 := rfl
  have hb : Word.bound = 2 ^ 64 := rfl
  have hmask : (if 64 ≤ window then Word.largest else 1 <<< window - 1) = 1 <<< window - 1 := by
    split
    · rw [hall, show window = 64 by omega]
    · rfl
  apply Nat.eq_of_testBit_eq
  intro i
  simp only [shiftIn, Nat.testBit_and]
  rw [hmask]
  by_cases hn : 64 ≤ n
  · rw [if_pos hn, hall, testBit_ones, testBit_ones, testBit_ones]
    simp only [← Bool.decide_and]
    congr 1
    simp only [eq_iff_iff]
    omega
  · rw [if_neg hn, Nat.testBit_or, hb, Nat.testBit_mod_two_pow, Nat.testBit_shiftLeft,
      testBit_ones, testBit_ones, testBit_ones, testBit_ones]
    simp only [← Bool.decide_and, ← Bool.decide_or]
    congr 1
    simp only [eq_iff_iff, ge_iff_le]
    omega

/-! ## Slots of a ring -/

/-- The slot that is `i` slots before the newest one of a ring. -/
def slotBack (window head i : Nat) : Nat := (head + window - 1 - i) % window

theorem slotBack_lt (window head i : Nat) (hw : 0 < window) : slotBack window head i < window :=
  Nat.mod_lt _ hw

theorem slotBack_eq {window head i : Nat} (hh : head < window) (hi : i < window) :
    slotBack window head i = if i < head then head - 1 - i else head + window - 1 - i := by
  unfold slotBack
  split
  · rw [show head + window - 1 - i = head - 1 - i + window by omega, Nat.add_mod_right]
    exact Nat.mod_eq_of_lt (by omega)
  · exact Nat.mod_eq_of_lt (by omega)

theorem nextSlot_eq {window head : Nat} (hh : head < window) :
    (head + 1) % window = if head + 1 = window then 0 else head + 1 := by
  split
  · next h => rw [h, Nat.mod_self]
  · exact Nat.mod_eq_of_lt (by omega)

theorem slotBack_next_zero {window head : Nat} (hh : head < window) :
    slotBack window ((head + 1) % window) 0 = head := by
  rw [slotBack_eq (Nat.mod_lt _ (by omega)) (by omega), nextSlot_eq hh]
  split <;> split <;> omega

theorem slotBack_next_succ {window head i : Nat} (hh : head < window) (hi : i + 1 < window) :
    slotBack window ((head + 1) % window) (i + 1) = slotBack window head i := by
  rw [slotBack_eq (Nat.mod_lt _ (by omega)) hi, slotBack_eq hh (by omega), nextSlot_eq hh]
  split <;> split <;> split <;> omega

theorem slotBack_ne {window head i : Nat} (hh : head < window) (hi : i + 1 < window) :
    slotBack window head i ≠ head := by
  rw [slotBack_eq hh (by omega)]
  split <;> omega

/-- The `count` newest slots of a ring hold consecutive offsets, the last of
them `last`. -/
structure RingEnds (t : Tracker) (s : Bytes) (count last : Nat) : Prop where
  head_lt : t.ringHead s < t.rep.window
  slots : ∀ i, i < count → t.slot s (slotBack t.rep.window (t.ringHead s) i) = last - i

end Tracker

end StreamMatch
