-- Fields of a byte string: what is read from a range depends on the bytes of
-- the range alone, a number that was written is read back, and a write leaves
-- every byte outside of its range.
import StreamMatch.Bytes.Within

namespace StreamMatch.Bytes

/-! ## Single bytes -/

theorem byteAt_of_size_le {bytes : Bytes} {i : Nat} (h : bytes.size ≤ i) : byteAt bytes i = 0 := by
  unfold byteAt
  rw [dif_neg (by omega)]

theorem byteAt_eq_getElem {bytes : Bytes} {i : Nat} (h : i < bytes.size) :
    byteAt bytes i = bytes[i] := by
  unfold byteAt
  rw [dif_pos h]

theorem getElem?_eq_byteAt {bytes : Bytes} {i : Nat} (h : i < bytes.size) :
    bytes[i]? = some (byteAt bytes i) := by
  rw [byteAt_eq_getElem h]
  exact getElem?_pos bytes i h

/-- Strings of the same size with the same bytes are equal. -/
theorem ext_byteAt {a b : Bytes} (hs : a.size = b.size)
    (h : ∀ i, i < a.size → byteAt a i = byteAt b i) : a = b := by
  apply ByteArray.ext
  apply Array.ext hs
  intro i ha hb
  have hi := h i ha
  rw [byteAt_eq_getElem ha, byteAt_eq_getElem hb] at hi
  exact hi

theorem byteAt_append (a b : Bytes) (i : Nat) :
    byteAt (a ++ b) i = if i < a.size then byteAt a i else byteAt b (i - a.size) := by
  rw [byteAt_eq_getD, byteAt_eq_getD, byteAt_eq_getD, ByteArray.data_append, Array.getElem?_append,
    ByteArray.size_data]
  split <;> rfl

theorem byteAt_append_left {a b : Bytes} {i : Nat} (h : i < a.size) :
    byteAt (a ++ b) i = byteAt a i := by
  rw [byteAt_append, if_pos h]

theorem byteAt_replace (bytes : Bytes) (pos i : Nat) (bs : List UInt8) :
    byteAt (replace bytes pos bs) i =
      if pos ≤ i ∧ i < pos + bs.length ∧ i < bytes.size then bs[i - pos]?.getD 0
      else byteAt bytes i := by
  rw [byteAt_eq_getD, replace_getElem?, byteAt_eq_getD]
  split <;> rfl

theorem byteAt_zeros (size i : Nat) : byteAt (zeros size) i = 0 := by
  rw [byteAt_eq_getD, zeros_data, Array.getElem?_replicate]
  split <;> rfl

/-! ## Slices -/

theorem size_slice (bytes : Bytes) (pos len : Nat) :
    (slice bytes pos len).size = min (pos + len) bytes.size - min pos bytes.size := by
  simp only [slice, ByteArray.size_extract]
  omega

theorem size_slice_of_le {bytes : Bytes} {pos len : Nat} (h : pos + len ≤ bytes.size) :
    (slice bytes pos len).size = len := by
  rw [size_slice]
  omega

theorem slice_zero (bytes : Bytes) (pos : Nat) : slice bytes pos 0 = ByteArray.empty := by
  apply ext_byteAt
  · rw [size_slice, ByteArray.size_empty]
    omega
  · intro i hi
    rw [size_slice] at hi
    omega

theorem toList_slice (bytes : Bytes) (pos len : Nat) :
    (slice bytes pos len).toList = (bytes.toList.drop pos).take len := by
  rw [toList, slice_data, Array.toList_extract, List.extract_eq_take_drop, Nat.add_sub_cancel_left]
  rfl

/-- What is past the end is not part of a slice. -/
theorem slice_clip (bytes : Bytes) (pos len : Nat) :
    slice bytes pos len = slice bytes pos (min len (bytes.size - pos)) := by
  unfold slice
  rw [show min (pos + min len (bytes.size - pos)) bytes.size = min (pos + len) bytes.size by omega]

theorem slice_eq_iff {bytes needle : Bytes} {pos : Nat} (h : pos + needle.size ≤ bytes.size) :
    slice bytes pos needle.size = needle ↔
      ∀ i, i < needle.size → byteAt bytes (pos + i) = byteAt needle i := by
  constructor
  · intro hs i hi
    rw [← byteAt_slice hi h, hs]
  · intro hb
    apply ext_byteAt (size_slice_of_le h)
    intro i hi
    rw [size_slice_of_le h] at hi
    rw [byteAt_slice hi h, hb i hi]

/-- A needle stands where its bytes do. -/
theorem standsAt_iff_byteAt {needle bytes : Bytes} {pos : Nat} :
    standsAt needle bytes pos = true ↔ pos + needle.size ≤ bytes.size ∧
      ∀ i, i < needle.size → byteAt bytes (pos + i) = byteAt needle i := by
  rw [standsAt_iff]
  constructor
  · rintro ⟨h, hs⟩
    exact ⟨h, (slice_eq_iff h).mp hs⟩
  · rintro ⟨h, hb⟩
    exact ⟨h, (slice_eq_iff h).mpr hb⟩

/-! ## Numbers -/

theorem readNumber_congr {a b : Bytes} {pos pos' width : Nat}
    (h : ∀ i, i < width → byteAt a (pos + i) = byteAt b (pos' + i)) :
    readNumber a pos width = readNumber b pos' width := by
  induction width generalizing pos pos' with
  | zero => rfl
  | succ width ih =>
    have h₀ := h 0 (by omega)
    simp only [Nat.add_zero] at h₀
    rw [readNumber, readNumber, h₀, ih]
    intro i hi
    have hi' := h (i + 1) (by omega)
    rwa [show pos + 1 + i = pos + (i + 1) by omega, show pos' + 1 + i = pos' + (i + 1) by omega]

/-- The number that is read is the one whose digits stand there. -/
theorem readNumber_eq_number {bytes : Bytes} {pos : Nat} {bs : List UInt8}
    (h : ∀ i, i < bs.length → byteAt bytes (pos + i) = bs[i]?.getD 0) :
    readNumber bytes pos bs.length = number bs := by
  induction bs generalizing pos with
  | nil => rfl
  | cons b rest ih =>
    have h₀ := h 0 (by simp)
    simp only [Nat.add_zero, List.getElem?_cons_zero, Option.getD_some] at h₀
    rw [List.length_cons, readNumber, number, h₀, ih]
    intro i hi
    have hi' := h (i + 1) (by rw [List.length_cons]; omega)
    rwa [List.getElem?_cons_succ, show pos + (i + 1) = pos + 1 + i by omega] at hi'

theorem readNumber_lt (bytes : Bytes) (pos width : Nat) :
    readNumber bytes pos width < 1 <<< (8 * width) := by
  induction width generalizing pos with
  | zero => exact Nat.one_pos
  | succ width ih =>
    have hb : (byteAt bytes pos).toNat < 256 := UInt8.toNat_lt _
    have hr := ih (pos + 1)
    rw [readNumber, shift_byte]
    omega

/-- A number that was written is read back, as far as it fits. -/
theorem readNumber_writeNumber (bytes : Bytes) (pos width n : Nat)
    (h : pos + width ≤ bytes.size) :
    readNumber (writeNumber bytes pos width n) pos width = n % 1 <<< (8 * width) := by
  have hd : (digits width n).length = width := digits_length width n
  have hr : ∀ i, i < (digits width n).length →
      byteAt (replace bytes pos (digits width n)) (pos + i) = (digits width n)[i]?.getD 0 := by
    intro i hi
    rw [byteAt_replace, if_pos (by omega), Nat.add_sub_cancel_left]
  have hn := readNumber_eq_number hr
  rw [hd, number_digits] at hn
  rw [writeNumber_eq_replace, hn]

theorem readWord_writeNumber (bytes : Bytes) (pos n : Nat) (h : pos + 8 ≤ bytes.size)
    (hn : n < Word.bound) : readWord (writeNumber bytes pos 8 n) pos = n := by
  rw [readWord_eq, readNumber_writeNumber bytes pos 8 n h]
  exact Nat.mod_eq_of_lt hn

/-! ## Changes -/

/-- Two strings of the same size that differ at most in the `len` bytes from
position `pos` on. -/
structure AgreeOutside (pos len : Nat) (a b : Bytes) : Prop where
  size_eq : b.size = a.size
  same : ∀ i, i < pos ∨ pos + len ≤ i → byteAt b i = byteAt a i

namespace AgreeOutside

variable {a b c : Bytes} {pos len pos' len' : Nat}

theorem refl (pos len : Nat) (a : Bytes) : AgreeOutside pos len a a := ⟨rfl, fun _ _ => rfl⟩

theorem trans (hab : AgreeOutside pos len a b) (hbc : AgreeOutside pos len b c) :
    AgreeOutside pos len a c :=
  ⟨hbc.size_eq.trans hab.size_eq, fun i hi => (hbc.same i hi).trans (hab.same i hi)⟩

/-- A change within a range is one within each larger range. -/
theorem mono (h : AgreeOutside pos len a b) (hpos : pos' ≤ pos)
    (hstop : pos + len ≤ pos' + len') : AgreeOutside pos' len' a b :=
  ⟨h.size_eq, fun i hi => h.same i (by omega)⟩

/-- Numbers outside of the range stay. -/
theorem readNumber_eq (h : AgreeOutside pos len a b) {at' width : Nat}
    (hat : at' + width ≤ pos ∨ pos + len ≤ at') :
    readNumber b at' width = readNumber a at' width :=
  readNumber_congr fun i _ => h.same (at' + i) (by omega)

theorem readWord_eq (h : AgreeOutside pos len a b) {at' : Nat}
    (hat : at' + 8 ≤ pos ∨ pos + len ≤ at') : readWord b at' = readWord a at' := by
  rw [Bytes.readWord_eq, Bytes.readWord_eq]
  exact h.readNumber_eq hat

/-- Parts outside of the range stay. -/
theorem slice_eq (h : AgreeOutside pos len a b) {at' width : Nat} (hin : at' + width ≤ a.size)
    (hat : at' + width ≤ pos ∨ pos + len ≤ at') : slice b at' width = slice a at' width := by
  have hb : at' + width ≤ b.size := h.size_eq ▸ hin
  apply ext_byteAt
  · rw [size_slice_of_le hb, size_slice_of_le hin]
  · intro i hi
    rw [size_slice_of_le hb] at hi
    rw [byteAt_slice hi hb, byteAt_slice hi hin]
    exact h.same (at' + i) (by omega)

end AgreeOutside

theorem agreeOutside_replace (bytes : Bytes) (pos : Nat) (bs : List UInt8) :
    AgreeOutside pos bs.length bytes (replace bytes pos bs) := by
  refine ⟨replace_size bytes pos bs, fun i hi => ?_⟩
  rw [byteAt_replace, if_neg (by omega)]

theorem agreeOutside_writeNumber (bytes : Bytes) (pos width n : Nat) :
    AgreeOutside pos width bytes (writeNumber bytes pos width n) := by
  have h := agreeOutside_replace bytes pos (digits width n)
  rwa [digits_length, ← writeNumber_eq_replace] at h

theorem agreeOutside_clear (bytes : Bytes) (pos len : Nat) :
    AgreeOutside pos len bytes (clear bytes pos len) := by
  have h := agreeOutside_replace bytes pos (List.replicate len 0)
  rwa [List.length_replicate, ← clear_eq_replace] at h

theorem agreeOutside_overwrite (bytes source : Bytes) (pos : Nat)
    (h : pos + source.size ≤ bytes.size) :
    AgreeOutside pos source.size bytes (overwrite bytes pos source) := by
  have h' := agreeOutside_replace bytes pos source.toList
  rwa [length_toList, ← overwrite_eq_replace h] at h'

/-- Cleared bytes are zero. -/
theorem byteAt_clear {bytes : Bytes} {pos len i : Nat} (h : pos ≤ i ∧ i < pos + len) :
    byteAt (clear bytes pos len) i = 0 := by
  rw [clear_eq_replace, byteAt_replace, List.length_replicate]
  split
  · rw [List.getElem?_replicate, if_pos (by omega)]
    rfl
  · exact byteAt_of_size_le (by omega)

/-- A number made of zeros is zero. -/
theorem readNumber_eq_zero {bytes : Bytes} {pos width : Nat}
    (h : ∀ i, i < width → byteAt bytes (pos + i) = 0) : readNumber bytes pos width = 0 := by
  induction width generalizing pos with
  | zero => rfl
  | succ width ih =>
    have h₀ := h 0 (by omega)
    rw [readNumber, show byteAt bytes pos = 0 from h₀, ih]
    · rfl
    · intro i hi
      have hi' := h (i + 1) (by omega)
      rwa [show pos + (i + 1) = pos + 1 + i by omega] at hi'

theorem readNumber_clear {bytes : Bytes} {pos len at' width : Nat}
    (h : pos ≤ at' ∧ at' + width ≤ pos + len) : readNumber (clear bytes pos len) at' width = 0 :=
  readNumber_eq_zero fun i hi => byteAt_clear (by omega)

theorem readWord_clear {bytes : Bytes} {pos len at' : Nat}
    (h : pos ≤ at' ∧ at' + 8 ≤ pos + len) : readWord (clear bytes pos len) at' = 0 := by
  rw [readWord_eq, readNumber_clear h]

/-- What was written over a range stands there. -/
theorem overwriteWithin_eq_ok {bytes source : Bytes} {pos : Nat}
    (h : pos + source.size ≤ bytes.size) :
    overwriteWithin bytes pos source = .ok (overwrite bytes pos source) := by
  unfold overwriteWithin
  rw [decide_eq_true h]
  rfl

theorem byteAt_overwrite {bytes source : Bytes} {pos : Nat} (h : pos + source.size ≤ bytes.size)
    (i : Nat) : byteAt (overwrite bytes pos source) i =
      if pos ≤ i ∧ i < pos + source.size then byteAt source (i - pos) else byteAt bytes i := by
  rw [overwrite_eq_replace h, byteAt_replace, length_toList]
  by_cases hi : pos ≤ i ∧ i < pos + source.size
  · rw [if_pos hi, if_pos (by omega), byteAt_eq_getD, toList, Array.getElem?_toList]
  · rw [if_neg hi, if_neg (by omega)]

theorem slice_overwrite (bytes source : Bytes) (pos : Nat) (h : pos + source.size ≤ bytes.size) :
    slice (overwrite bytes pos source) pos source.size = source := by
  have hs := (agreeOutside_overwrite bytes source pos h).size_eq
  refine (slice_eq_iff (by omega)).mpr fun i hi => ?_
  rw [byteAt_overwrite h, if_pos (by omega), Nat.add_sub_cancel_left]

end StreamMatch.Bytes
