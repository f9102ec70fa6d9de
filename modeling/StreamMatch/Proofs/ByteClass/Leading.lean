-- Finding the end of a run of bytes in a class. Both ways of looking, one byte
-- at a time and eight bytes at a time, stop at the same position.
import StreamMatch.ByteClass.Leading
import StreamMatch.Proofs.Bytes.Load

namespace StreamMatch

open Bytes

/-! ## Low zeros -/

theorem lowZeroBits_double (width n : Nat) :
    lowZeroBits (width + 1) (2 * n) = lowZeroBits width n + 1 := by
  rw [lowZeroBits, if_neg (by omega), Nat.mul_div_cancel_left n (by omega)]

theorem lowZeroBits_of_byte_zero (width n : Nat) :
    lowZeroBits (width + 8) (256 * n) = lowZeroBits width n + 8 := by
  rw [show 256 * n = 2 * (2 * (2 * (2 * (2 * (2 * (2 * (2 * n))))))) by omega]
  simp only [lowZeroBits_double]

theorem lowZeroBits_lt {width n k : Nat} (hk : k ≤ width) (hn : n % 1 <<< k ≠ 0) :
    lowZeroBits width n < k := by
  induction k generalizing width n with
  | zero =>
    rw [Nat.one_shiftLeft, Nat.pow_zero, Nat.mod_one] at hn
    exact absurd rfl hn
  | succ k ih =>
    obtain ⟨width, rfl⟩ : ∃ w, width = w + 1 := ⟨width - 1, by omega⟩
    rw [lowZeroBits]
    split
    · omega
    · have hd : n / 2 % 1 <<< k ≠ 0 := by
        rw [Nat.one_shiftLeft, Nat.pow_succ, Nat.mul_comm, Nat.mod_mul] at hn
        rw [Nat.one_shiftLeft]
        omega
      have := ih (show k ≤ width by omega) hd
      omega

/-- The low zeros of a number end in its first digit that is not zero. -/
theorem lowZeroBits_numberOf {f : Nat → UInt8} {width : Nat} (h : numberOf f width ≠ 0) :
    lowZeroBits (8 * width) (numberOf f width) / 8 < width ∧
      f (lowZeroBits (8 * width) (numberOf f width) / 8) ≠ 0 ∧
      ∀ i, i < lowZeroBits (8 * width) (numberOf f width) / 8 → f i = 0 := by
  induction width generalizing f with
  | zero => exact absurd rfl h
  | succ width ih =>
    have hlt : (f 0).toNat < 256 := UInt8.toNat_lt _
    by_cases hz : f 0 = 0
    · have hn : numberOf f (width + 1) = 256 * numberOf (fun i => f (i + 1)) width := by
        rw [numberOf, hz]
        exact Nat.zero_add _
      have hrest : numberOf (fun i => f (i + 1)) width ≠ 0 := by omega
      obtain ⟨hwidth, hne, hzeros⟩ := ih hrest
      rw [hn, show 8 * (width + 1) = 8 * width + 8 by omega, lowZeroBits_of_byte_zero,
        show ∀ m, (m + 8) / 8 = m / 8 + 1 by omega]
      refine ⟨by omega, hne, ?_⟩
      intro i hi
      cases i with
      | zero => exact hz
      | succ i => exact hzeros i (by omega)
    · have hne : (f 0).toNat ≠ 0 := fun h0 => hz (UInt8.toNat_inj.mp h0)
      have hbits : lowZeroBits (8 * (width + 1)) (numberOf f (width + 1)) < 8 := by
        refine lowZeroBits_lt (by omega) ?_
        have h256 : 1 <<< 8 = 256 := rfl
        rw [numberOf, h256]
        omega
      rw [Nat.div_eq_of_lt hbits]
      exact ⟨by omega, hz, fun i hi => absurd hi (by omega)⟩

theorem lowZeroBytes_numberOf {f : Nat → UInt8} (h : numberOf f 8 ≠ 0) :
    lowZeroBytes (numberOf f 8) < 8 ∧ f (lowZeroBytes (numberOf f 8)) ≠ 0 ∧
      ∀ i, i < lowZeroBytes (numberOf f 8) → f i = 0 := by
  have hbits : 8 * 8 = 64 := rfl
  have hspec := lowZeroBits_numberOf h
  rw [hbits] at hspec
  unfold lowZeroBytes
  exact hspec

theorem wordOf_eq (b : UInt8) : wordOf b = numberOf (fun _ => b) 8 := by
  unfold wordOf
  rw [number_eq_numberOf, List.length_replicate]
  apply numberOf_congr
  intro i hi
  rw [List.getElem?_replicate, if_pos hi]
  rfl

/-- How many of eight bytes are equal to `b` before the first one that is not. -/
def alike (bytes : Bytes) (i : Nat) (b : UInt8) : Nat :=
  let difference := numberOf (fun k => byteAt bytes (i + k)) 8 ^^^ wordOf b
  if difference = 0 then 8 else lowZeroBytes difference

theorem alike_spec (bytes : Bytes) (i : Nat) (b : UInt8) :
    alike bytes i b ≤ 8 ∧ (∀ k, k < alike bytes i b → byteAt bytes (i + k) = b) ∧
      (alike bytes i b < 8 → byteAt bytes (i + alike bytes i b) ≠ b) := by
  unfold alike
  simp only [wordOf_eq, numberOf_xor]
  split
  · next h =>
    refine ⟨Nat.le_refl 8, ?_, fun h8 => absurd h8 (by omega)⟩
    intro k hk
    exact UInt8.xor_eq_zero_iff.mp (numberOf_eq_zero_iff.mp h k hk)
  · next h =>
    obtain ⟨hlt, hne, hzeros⟩ := lowZeroBytes_numberOf h
    refine ⟨Nat.le_of_lt hlt, ?_, ?_⟩
    · intro k hk
      exact UInt8.xor_eq_zero_iff.mp (hzeros k hk)
    · intro _ heq
      exact hne (UInt8.xor_eq_zero_iff.mpr heq)

namespace ByteClass

/-! ## Where a run stops -/

/-- Of the first `limit` bytes, those from position `i` on are in the class up to
position `stop`, and no further. -/
structure StopsAt (c : ByteClass) (bytes : Bytes) (limit i stop : Nat) : Prop where
  le_stop : i ≤ stop
  stop_le : stop ≤ limit
  inside : ∀ k, i ≤ k → k < stop → c.contains (byteAt bytes k) = true
  outside : stop < limit → c.contains (byteAt bytes stop) = false

theorem StopsAt.step {c : ByteClass} {bytes : Bytes} {limit i j stop : Nat} (hij : i ≤ j)
    (hin : ∀ k, i ≤ k → k < j → c.contains (byteAt bytes k) = true)
    (h : c.StopsAt bytes limit j stop) : c.StopsAt bytes limit i stop := by
  refine ⟨Nat.le_trans hij h.le_stop, h.stop_le, ?_, h.outside⟩
  intro k hk hlt
  by_cases hkj : k < j
  · exact hin k hk hkj
  · exact h.inside k (by omega) hlt

/-- The longest prefix of a list in which all have a property. -/
theorem length_takeWhile_eq {α : Type} {p : α → Bool} {l : List α} {n : Nat} (hn : n ≤ l.length)
    (hin : ∀ k a, k < n → l[k]? = some a → p a = true) (hout : ∀ a, l[n]? = some a → p a = false) :
    (l.takeWhile p).length = n := by
  induction l generalizing n with
  | nil =>
    rw [List.length_nil] at hn
    rw [List.takeWhile_nil, List.length_nil]
    omega
  | cons a l ih =>
    cases n with
    | zero => rw [List.takeWhile_cons_of_neg (by simp [hout a rfl]), List.length_nil]
    | succ n =>
      rw [List.takeWhile_cons_of_pos (hin 0 a (by omega) rfl), List.length_cons]
      exact congrArg (· + 1) (ih (Nat.le_of_succ_le_succ hn)
        (fun k b hk => hin (k + 1) b (by omega)) hout)

theorem StopsAt.length_takeWhile {c : ByteClass} {bytes : Bytes} {i stop : Nat}
    (h : c.StopsAt bytes bytes.size i stop) :
    ((bytes.toList.drop i).takeWhile c.contains).length = stop - i := by
  have hle := h.le_stop
  have hstop := h.stop_le
  have hbyte (k : Nat) (b : UInt8) (hb : (bytes.toList.drop i)[k]? = some b) :
      i + k < bytes.size ∧ byteAt bytes (i + k) = b := by
    rw [List.getElem?_drop] at hb
    obtain ⟨hlt, rfl⟩ := List.getElem?_eq_some_iff.mp hb
    exact ⟨hlt, byteAt_eq_getElem hlt⟩
  apply length_takeWhile_eq
  · rw [List.length_drop, length_toList]
    omega
  · intro k b hk hb
    rw [← (hbyte k b hb).2]
    exact h.inside (i + k) (by omega) (by omega)
  · intro b hb
    obtain ⟨hlt, rfl⟩ := hbyte _ b hb
    rw [Nat.add_sub_cancel' hle] at hlt ⊢
    exact h.outside hlt

theorem scanFrom_stopsAt {c : ByteClass} {bytes : Bytes} {i : Nat} (h : i ≤ bytes.size) :
    c.StopsAt bytes bytes.size i (c.scanFrom bytes i) := by
  induction hn : bytes.size - i generalizing i with
  | zero =>
    have hi : ¬i < bytes.size := by omega
    rw [scanFrom, dif_neg hi]
    exact ⟨Nat.le_refl i, h, fun k hk hlt => absurd hlt (by omega), fun hlt => absurd hlt hi⟩
  | succ n ih =>
    have hi : i < bytes.size := by omega
    rw [scanFrom, dif_pos hi, ← byteAt_eq_getElem hi]
    split
    · next hc =>
      refine (ih (show i + 1 ≤ bytes.size by omega) (by omega)).step (by omega) ?_
      intro k hk hlt
      rwa [show k = i by omega]
    · next hc =>
      exact ⟨Nat.le_refl i, h, fun k hk hlt => absurd hlt (by omega), fun _ => by simpa using hc⟩

theorem contains_of_only? {c : ByteClass} {b : UInt8} (h : c.only? = some b) (x : UInt8) :
    c.contains x = true ↔ x = b := by
  unfold only? at h
  simp only at h
  split at h
  · next hbits =>
    have hb : UInt8.ofNat c.bits.toNat.log2 = b := Option.some.inj h
    have hx : x.toNat < 256 := x.toNat_lt
    by_cases hlog : c.bits.toNat.log2 < 256
    · have hbn : b.toNat = c.bits.toNat.log2 := by
        rw [← hb, UInt8.toNat_ofNat']
        omega
      unfold contains
      rw [hbits, BitVec.getLsbD_twoPow, ← UInt8.toNat_inj, hbn]
      simp only [hlog, decide_true, Bool.true_and, decide_eq_true_iff]
      exact eq_comm
    · have hlt : c.bits.toNat < 2 ^ 256 := c.bits.isLt
      have hne : c.bits.toNat ≠ 0 := by
        intro h0
        rw [h0] at hlog
        exact hlog (by decide)
      exact absurd ((Nat.log2_lt hne).mpr hlt) hlog
  · cases h

theorem exact_eq_numberOf {bytes : Bytes} {i : Nat} (h : i + 8 ≤ bytes.size) :
    Load.exact .eight bytes i 0 bytes.size = .ok (numberOf (fun k => byteAt bytes (i + k)) 8) := by
  have hwidth : LoadWidth.eight.bytes = 8 := rfl
  unfold Load.exact Load.requireExact
  rw [hwidth, decide_eq_true (show 0 ≤ i ∧ i + 8 ≤ bytes.size by omega), decide_eq_true h,
    readNumber_eq_numberOf]
  rfl

/-- The bytes past the end count as zero. -/
theorem forward_eq_numberOf {bytes : Bytes} {i : Nat} (h : bytes.size < sizeBound) :
    Load.forward .eight bytes i i bytes.size =
      .ok (numberOf (fun k => byteAt bytes (i + k)) 8) := by
  rw [Load.forward_eq (Nat.le_refl i) (by omega)]
  refine congrArg Except.ok (numberOf_congr fun k _ => ?_)
  rw [← Int.natCast_add]
  by_cases hk : i + k < bytes.size
  · exact Load.validByte_of_valid (by omega)
  · rw [byteAt_of_size_le (by omega)]
    exact Load.validByte_of_not_valid (by omega)

theorem alike_eq_eight_iff (bytes : Bytes) (i : Nat) (b : UInt8) :
    alike bytes i b = 8 ↔ numberOf (fun k => byteAt bytes (i + k)) 8 ^^^ wordOf b = 0 := by
  unfold alike
  simp only [wordOf_eq, numberOf_xor]
  split
  · next h => exact iff_of_true rfl h
  · next h =>
    have hlt := (lowZeroBytes_numberOf h).1
    exact iff_of_false (by omega) h

/-- Each word either goes on or tells the end, which is not past that of the
bytes. -/
theorem scanWords_eq {b : UInt8} {bytes : Bytes} {i : Nat} (h : i ≤ bytes.size)
    (hlt : bytes.size < sizeBound) :
    scanWords b bytes i = if i + 8 ≤ bytes.size ∧ alike bytes i b = 8 then
      scanWords b bytes (i + 8) else .ok (min (i + alike bytes i b) bytes.size) := by
  have hle := (alike_spec bytes i b).1
  have h8 := alike_eq_eight_iff bytes i b
  rw [scanWords]
  by_cases hw : i + 8 ≤ bytes.size
  · rw [dif_pos hw, exact_eq_numberOf hw, Checked.ok_bind]
    by_cases hz : numberOf (fun k => byteAt bytes (i + k)) 8 ^^^ wordOf b = 0
    · simp [hz, hw, h8.mpr hz]
    · have hne : ¬alike bytes i b = 8 := fun h' => hz (h8.mp h')
      have halike : lowZeroBytes (numberOf (fun k => byteAt bytes (i + k)) 8 ^^^ wordOf b) =
          alike bytes i b := (if_neg hz).symm
      have hmin : min (i + alike bytes i b) bytes.size = i + alike bytes i b := by omega
      simp [hz, hne, halike, hmin, Checked.pure_eq]
  · have hne : ¬(i + 8 ≤ bytes.size ∧ alike bytes i b = 8) := fun h' => hw h'.1
    rw [dif_neg hw, if_neg hne]
    by_cases hi : i < bytes.size
    · have hmin : min (i + alike bytes i b) bytes.size =
          i + min (alike bytes i b) (bytes.size - i) := by omega
      rw [if_pos hi, forward_eq_numberOf hlt, Checked.ok_bind, hmin]
      rfl
    · rw [if_neg hi, Nat.min_eq_right (by omega)]
      rfl

/-- Looking at eight bytes at a time stops where the run does. -/
theorem scanWords_stopsAt {c : ByteClass} {b : UInt8} {bytes : Bytes} {i : Nat}
    (hc : ∀ x, c.contains x = true ↔ x = b) (h : i ≤ bytes.size) (hlt : bytes.size < sizeBound) :
    ∃ stop, scanWords b bytes i = .ok stop ∧ c.StopsAt bytes bytes.size i stop := by
  induction hn : bytes.size - i using Nat.strongRecOn generalizing i with
  | ind n ih =>
    obtain ⟨hle, hsame, hdiff⟩ := alike_spec bytes i b
    have hin : ∀ k, i ≤ k → k < i + alike bytes i b → c.contains (byteAt bytes k) = true := by
      intro k hk hlt
      have hb := hsame (k - i) (by omega)
      rw [show i + (k - i) = k by omega] at hb
      exact (hc _).mpr hb
    rw [scanWords_eq h hlt]
    split
    · next hw =>
      rw [hw.2] at hin
      obtain ⟨stop, hscan, hstop⟩ := ih (bytes.size - (i + 8)) (by omega) hw.1 rfl
      exact ⟨stop, hscan, hstop.step (by omega) hin⟩
    · refine ⟨_, rfl, by omega, by omega, fun k hk hlt => hin k hk (by omega), ?_⟩
      intro hlt
      rw [show min (i + alike bytes i b) bytes.size = i + alike bytes i b by omega] at hlt ⊢
      rw [← Bool.not_eq_true]
      exact fun ht => hdiff (by omega) ((hc _).mp ht)

/-- How many bytes are counted from a position on: all those of the run. -/
theorem leadingFrom_spec {c : ByteClass} {bytes : Bytes} {start : Nat} (h : start ≤ bytes.size)
    (hlt : bytes.size < sizeBound) :
    ∃ n, c.leadingFrom bytes start = .ok n ∧ c.StopsAt bytes bytes.size start (start + n) := by
  unfold leadingFrom
  rw [decide_eq_true h, Checked.require_true, Checked.ok_bind]
  rcases hone : c.only? with _ | b
  · have hstop := scanFrom_stopsAt (c := c) h
    have hle := hstop.le_stop
    refine ⟨c.scanFrom bytes start - start, rfl, ?_⟩
    rwa [Nat.add_sub_cancel' hle]
  · obtain ⟨stop, hscan, hstop⟩ := scanWords_stopsAt (contains_of_only? hone) h hlt
    have hle := hstop.le_stop
    refine ⟨stop - start, ?_, ?_⟩
    · simp only [hscan, Checked.ok_bind, Checked.pure_eq]
    · rwa [Nat.add_sub_cancel' hle]

/-- The bytes that are counted are the longest prefix in the class. -/
theorem leadingFrom_eq {c : ByteClass} {bytes : Bytes} {start : Nat} (h : start ≤ bytes.size)
    (hlt : bytes.size < sizeBound) : c.leadingFrom bytes start =
      .ok ((bytes.toList.drop start).takeWhile c.contains).length := by
  obtain ⟨n, hn, hstop⟩ := leadingFrom_spec (c := c) h hlt
  rw [hn, hstop.length_takeWhile, Nat.add_sub_cancel_left]

end ByteClass

end StreamMatch
