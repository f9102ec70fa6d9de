-- Loads near the edges of a buffer. Whatever the kind, the bytes of the number are those of
-- the buffer, with a zero for each position outside of the valid range. The cautious kinds
-- fail only if the position is on the wrong side of the range, the others if a byte is missing.
import StreamMatch.Bytes.Load
import StreamMatch.Proofs.Bytes.Words
import StreamMatch.Proofs.Checked

namespace StreamMatch.Load

open Bytes

/-- The byte of a load at a position, zero unless it is in the valid range and in the buffer. -/
def validByte (buffer : Bytes) (lo hi : Nat) (pos : Int) : UInt8 :=
  if lo ≤ pos ∧ pos < hi ∧ 0 ≤ pos ∧ pos < buffer.size then byteAt buffer pos.toNat else 0

/-- The number in the bytes of a load. -/
def value (width : LoadWidth) (buffer : Bytes) (pos : Int) (lo hi : Nat) : Nat :=
  numberOf (fun k => validByte buffer lo hi (pos + k)) width.bytes

variable {width : LoadWidth} {buffer : Bytes} {pos : Int} {lo hi a b p : Nat}

theorem bytes_pos (width : LoadWidth) : 0 < width.bytes := by cases width <;> decide

theorem bytes_le (width : LoadWidth) : width.bytes ≤ maxWidth := by cases width <;> decide

/-! ## Single bytes -/

theorem validByte_of_valid (h : lo ≤ p ∧ p < hi ∧ p < buffer.size) :
    validByte buffer lo hi p = byteAt buffer p := by
  unfold validByte
  rw [if_pos (by omega), Int.toNat_natCast]

theorem validByte_of_not_valid (h : ¬(lo ≤ pos ∧ pos < hi ∧ pos < buffer.size)) :
    validByte buffer lo hi pos = 0 := by
  unfold validByte
  apply if_neg
  omega

/-- No byte of a load that ends before the range or starts after it is valid. -/
theorem value_of_apart (h : ∀ i : Int, pos ≤ i → i < pos + width.bytes → i < lo ∨ hi ≤ i ∨
    (buffer.size : Int) ≤ i) : value width buffer pos lo hi = 0 := by
  apply numberOf_eq_zero_iff.mpr
  intro k hk
  have hk' := h (pos + k) (by omega) (by omega)
  exact validByte_of_not_valid (by omega)

/-! ## The parts of a cautious load -/

theorem assemble_eq {bytes : Bytes} (h : bytes.size = width.bytes) :
    assemble width bytes = .ok (numberOf (byteAt bytes) width.bytes) := by
  unfold assemble
  rw [beq_iff_eq.mpr h, Checked.require_true, Checked.ok_bind, readNumber_eq_numberOf]
  simp only [Nat.zero_add, Checked.pure_eq]

theorem between_eq (hab : a ≤ b) (hb : b ≤ buffer.size) (hlt : b < Word.bound) :
    between buffer a b = .ok (buffer.slice a (b - a)) := by
  unfold between
  simp only [Signed.toWord_eq hlt, Signed.toWord_eq (Nat.lt_of_le_of_lt hab hlt),
    Word.sub_eq_ok hab, Checked.ok_bind]
  exact sliceWithin_eq_ok (by omega)

theorem sub_eq_ok {x y : Int} (h : Signed.smallest ≤ x - y ∧ x - y ≤ Signed.largest) :
    Signed.sub x y = .ok (x - y) := Signed.fit_eq_ok h

/-- All the bytes are valid. -/
theorem assemble_between (hlo : lo ≤ p) (hhi : p + width.bytes ≤ hi)
    (hsize : hi ≤ buffer.size) (hlt : hi < sizeBound) :
    (do assemble width (← between buffer p (p + width.bytes : Nat))) =
      .ok (value width buffer p lo hi) := by
  have hbound : Word.bound = 2 * sizeBound := rfl
  have hin : p + width.bytes ≤ buffer.size := Nat.le_trans hhi hsize
  rw [between_eq (by omega) hin (by omega), Checked.ok_bind, Nat.add_sub_cancel_left,
    assemble_eq (size_slice_of_le hin)]
  refine congrArg Except.ok (numberOf_congr fun k hk => ?_)
  rw [byteAt_slice hk hin, ← Int.natCast_add]
  exact (validByte_of_valid (by omega)).symm

/-- Only the bytes between two positions are valid. -/
theorem padded_eq (hab : a < b) (hfirst : (a : Int) = max pos lo)
    (hlast : (b : Int) = min (pos + width.bytes) hi) (hsize : hi ≤ buffer.size)
    (hlt : hi < sizeBound) :
    padded width buffer pos a b = .ok (value width buffer pos lo hi) := by
  have hwidth := bytes_le width
  have hmax : maxWidth = 16 := rfl
  have hbound : Word.bound = 2 * sizeBound := rfl
  have hhalf : sizeBound = 0x8000000000000000 := rfl
  obtain ⟨missing, hmissing⟩ : ∃ d : Nat, (a : Int) - pos = d := ⟨(a - pos).toNat, by omega⟩
  have hslice : (buffer.slice a (b - a)).size = b - a := size_slice_of_le (by omega)
  have hfits : missing + (buffer.slice a (b - a)).size ≤ (zeros maxWidth).size := by
    rw [hslice, zeros_size]
    omega
  have hsub : Signed.sub a pos = .ok missing := by
    rw [← hmissing]
    apply sub_eq_ok
    unfold Signed.smallest Signed.largest
    omega
  have hwhole : 0 + width.bytes ≤ (overwrite (zeros maxWidth) missing
      (buffer.slice a (b - a))).size := by
    rw [(agreeOutside_overwrite _ _ _ hfits).size_eq, zeros_size]
    omega
  unfold padded
  rw [hsub, Checked.ok_bind, Signed.toWord_eq (by omega), between_eq (by omega) (by omega)
    (by omega), Checked.ok_bind, overwriteWithin_eq_ok hfits, Checked.ok_bind,
    sliceWithin_eq_ok hwhole, Checked.ok_bind, assemble_eq (size_slice_of_le hwhole)]
  refine congrArg Except.ok (numberOf_congr fun k hk => ?_)
  rw [byteAt_slice hk hwhole, Nat.zero_add, byteAt_overwrite hfits, hslice]
  split
  · -- The byte was copied from the buffer.
    rw [byteAt_slice (by omega) (by omega), show pos + k = ((a + (k - missing) : Nat) : Int) by
      omega]
    exact (validByte_of_valid (by omega)).symm
  · rw [validByte_of_not_valid (by omega)]
    exact byteAt_zeros maxWidth k

theorem isWhole_eq {first last : Int} (h : first = pos →
      Signed.smallest ≤ last - first ∧ last - first ≤ Signed.largest) :
    isWhole width pos first last = .ok (decide (first = pos ∧ last - first = width.bytes)) := by
  unfold isWhole
  by_cases hfirst : first = pos
  · rw [if_pos hfirst, sub_eq_ok (h hfirst), Checked.ok_bind]
    simp only [hfirst, true_and, Checked.pure_eq]
    rfl
  · rw [if_neg hfirst]
    simp [hfirst, Checked.pure_eq]

/-! ## Cautious loads -/

/-- What is past the end of the buffer is not valid anyway. -/
theorem value_clip (width : LoadWidth) (buffer : Bytes) (pos : Int) (lo hi : Nat) :
    value width buffer pos lo (min hi buffer.size) = value width buffer pos lo hi := by
  refine numberOf_congr fun k hk => ?_
  unfold validByte
  congr 1
  simp only [eq_iff_iff]
  omega

/-- A cautious load gives a number at any position. -/
theorem cautious_eq (hpos : Signed.smallest ≤ pos ∧ pos ≤ Signed.largest)
    (hlt : min hi buffer.size < sizeBound) :
    cautious width buffer pos lo hi = .ok (value width buffer pos lo hi) := by
  rw [← value_clip]
  unfold cautious
  obtain ⟨stop, hstop⟩ : ∃ n, min hi buffer.size = n := ⟨_, rfl⟩
  have hsize : stop ≤ buffer.size := by omega
  simp only [hstop] at hlt ⊢
  by_cases hempty : stop ≤ lo
  · rw [if_pos hempty, value_of_apart fun i _ _ => by omega]
    rfl
  · have hlarge : Signed.largest = (sizeBound : Int) - 1 := rfl
    have hsmall : Signed.smallest = -(sizeBound : Int) := rfl
    have hbound : sizeBound = 0x8000000000000000 := rfl
    have hwidth := bytes_pos width
    have hend :
        min (Signed.addSat pos width.bytes) (stop : Int) = min (pos + width.bytes) stop := by
      unfold Signed.addSat
      omega
    rw [if_neg hempty, Signed.ofWord_eq (by omega), Signed.ofWord_eq hlt, hend,
      isWhole_eq fun hfirst => by omega, Checked.ok_bind]
    by_cases hwhole : max pos (lo : Int) = pos ∧
        min (pos + width.bytes) (stop : Int) - max pos (lo : Int) = width.bytes
    · obtain ⟨p, rfl⟩ : ∃ p : Nat, pos = p := ⟨pos.toNat, by omega⟩
      rw [decide_eq_true hwhole, if_pos rfl, show max (p : Int) lo = p by omega,
        show min ((p : Int) + width.bytes) (stop : Int) = (p + width.bytes : Nat) by omega]
      exact assemble_between (by omega) (by omega) (by omega) hlt
    · rw [decide_eq_false hwhole, if_neg Bool.false_ne_true]
      by_cases hnone : min (pos + width.bytes) (stop : Int) ≤ max pos (lo : Int)
      · rw [if_pos hnone, value_of_apart fun i _ _ => by omega]
        rfl
      · obtain ⟨a, ha⟩ : ∃ a : Nat, max pos (lo : Int) = a := ⟨(max pos (lo : Int)).toNat, by omega⟩
        obtain ⟨b, hb⟩ : ∃ b : Nat, min (pos + width.bytes) (stop : Int) = b :=
          ⟨(min (pos + width.bytes) (stop : Int)).toNat, by omega⟩
        rw [if_neg hnone, ha, hb]
        exact padded_eq (by omega) ha.symm hb.symm hsize hlt

/-- The bytes of a forward load start at its position, so those before `lo` do not matter. -/
theorem value_forward (hlo : lo ≤ p) : value width buffer p p hi = value width buffer p lo hi := by
  refine numberOf_congr fun k hk => ?_
  unfold validByte
  congr 1
  simp only [eq_iff_iff]
  omega

theorem forward_eq (hlo : lo ≤ p) (hlt : min hi buffer.size < sizeBound) :
    forward width buffer p lo hi = .ok (value width buffer p lo hi) := by
  have hlarge : Signed.largest = (sizeBound : Int) - 1 := rfl
  have hsmall : Signed.smallest = -(sizeBound : Int) := rfl
  unfold forward
  rw [decide_eq_true hlo, Checked.require_true, Checked.ok_bind, ← value_forward hlo]
  split
  · exact cautious_eq (by omega) hlt
  · rw [value_of_apart fun i _ _ => by omega]
    rfl

theorem exact_eq (hlo : lo ≤ p) (hhi : p + width.bytes ≤ hi)
    (hsize : p + width.bytes ≤ buffer.size) :
    exact width buffer p lo hi = .ok (value width buffer p lo hi) := by
  unfold exact requireExact
  rw [decide_eq_true ⟨hlo, hhi⟩, decide_eq_true hsize, readNumber_eq_numberOf]
  refine congrArg Except.ok (numberOf_congr fun k hk => ?_)
  rw [← Int.natCast_add]
  exact (validByte_of_valid (by omega)).symm

/-- An exact load gives a number only if all its bytes are valid. -/
theorem of_exact_eq_ok {v : Nat} (h : exact width buffer p lo hi = .ok v) :
    lo ≤ p ∧ p + width.bytes ≤ hi ∧ p + width.bytes ≤ buffer.size := by
  unfold exact requireExact at h
  obtain ⟨_, h, -⟩ := Checked.bind_eq_ok_iff.mp h
  obtain ⟨_, hrange, hsize⟩ := Checked.bind_eq_ok_iff.mp h
  have hrange' := of_decide_eq_true (Checked.of_require hrange)
  exact ⟨hrange'.1, hrange'.2, of_decide_eq_true (Checked.of_require hsize)⟩

theorem of_aligned_eq_ok {address v : Nat} (h : aligned width buffer address p lo hi = .ok v) :
    exact width buffer p lo hi = .ok v := by
  unfold aligned at h
  obtain ⟨_, -, h⟩ := Checked.bind_eq_ok_iff.mp h
  obtain ⟨_, -, h⟩ := Checked.bind_eq_ok_iff.mp h
  exact h

/-- An address that is a multiple of the width, in the address space. -/
theorem aligned_eq {address : Nat} (hlt : address + p < Word.bound)
    (haligned : (address + p) % width.bytes = 0) :
    aligned width buffer address p lo hi = exact width buffer p lo hi := by
  unfold aligned
  rw [Word.add_eq_ok hlt, Checked.ok_bind, beq_iff_eq.mpr haligned, Checked.require_true,
    Checked.ok_bind]

theorem unsigned_bind {α : Type} (p : Nat) (f : Nat → Checked α) :
    (unsigned p >>= f) = f p := by
  unfold unsigned
  rw [if_pos (Int.natCast_nonneg p), Int.toNat_natCast, Checked.ok_bind]

theorem of_unsigned_eq_ok (h : unsigned pos = .ok p) : pos = p := by
  unfold unsigned at h
  split at h
  · cases h
    omega
  · cases h

/-! ## All kinds -/

section Perform

variable {address v : Nat} {mode : LoadMode} (hbuffer : buffer.size < sizeBound)
  (hpos : Signed.smallest ≤ pos ∧ pos ≤ Signed.largest)

/-- The exact kinds give a number only if all its bytes are valid. -/
theorem of_perform_eq_ok (hmode : mode = .exact ∨ mode = .aligned)
    (h : perform width buffer address mode pos lo hi = .ok v) : ∃ p : Nat, pos = p ∧
      exact width buffer p lo hi = .ok v := by
  rcases hmode with rfl | rfl
  · obtain ⟨p, hp, h⟩ := Checked.bind_eq_ok_iff.mp h
    exact ⟨p, of_unsigned_eq_ok hp, h⟩
  · obtain ⟨p, hp, h⟩ := Checked.bind_eq_ok_iff.mp h
    exact ⟨p, of_unsigned_eq_ok hp, of_aligned_eq_ok h⟩

include hbuffer hpos

/-- Each kind of load gives the same number, if it gives one. -/
theorem eq_value_of_perform (h : perform width buffer address mode pos lo hi = .ok v) :
    v = value width buffer pos lo hi := by
  have hcautious : cautious width buffer pos lo hi = .ok (value width buffer pos lo hi) :=
    cautious_eq hpos (by omega)
  have hexact (hmode : mode = .exact ∨ mode = .aligned) : v = value width buffer pos lo hi := by
    obtain ⟨p, rfl, hp⟩ := of_perform_eq_ok hmode h
    obtain ⟨hlo, hhi, hsize⟩ := of_exact_eq_ok hp
    rw [exact_eq hlo hhi hsize] at hp
    exact (Except.ok.inj hp).symm
  cases mode with
  | exact => exact hexact (Or.inl rfl)
  | aligned => exact hexact (Or.inr rfl)
  | forward =>
    obtain ⟨p, hp, hforward⟩ := Checked.bind_eq_ok_iff.mp h
    obtain rfl := of_unsigned_eq_ok hp
    obtain ⟨_, hlo, -⟩ := Checked.bind_eq_ok_iff.mp hforward
    rw [forward_eq (of_decide_eq_true (Checked.of_require hlo)) (by omega)] at hforward
    exact (Except.ok.inj hforward).symm
  | backward =>
    obtain ⟨_, -, hbackward⟩ := Checked.bind_eq_ok_iff.mp h
    exact Except.ok.inj (hbackward.symm.trans hcautious)
  | anywhere => exact Except.ok.inj (h.symm.trans hcautious)

theorem bytes_of_perform (h : perform width buffer address mode pos lo hi = .ok v) :
    v < 1 <<< (8 * width.bytes) ∧ ∀ k, k < width.bytes →
      (digits width.bytes v)[k]? = some (validByte buffer lo hi (pos + k)) := by
  rw [eq_value_of_perform hbuffer hpos h]
  unfold value
  refine ⟨numberOf_lt _ _, fun k hk => ?_⟩
  rw [digits_numberOf, List.getElem?_map, List.getElem?_range hk]
  rfl

theorem exists_backward (hstop : pos + width.bytes ≤ hi) (hhi : hi ≤ Signed.largest) :
    ∃ v, perform width buffer address .backward pos lo hi = .ok v := by
  have hlarge : Signed.largest = (sizeBound : Int) - 1 := rfl
  have hsmall : Signed.smallest = -(sizeBound : Int) := rfl
  have hbound : sizeBound = 0x8000000000000000 := rfl
  have hbefore : Signed.addSat pos width.bytes ≤ Signed.ofWord hi := by
    rw [Signed.ofWord_eq (by omega)]
    unfold Signed.addSat
    omega
  refine ⟨value width buffer pos lo hi, ?_⟩
  unfold perform backward
  rw [decide_eq_true hbefore]
  exact cautious_eq hpos (by omega)

/-- Whatever the kind of a load, the bytes of its number are those of the buffer, with a zero for
each position outside of the valid range. A load anywhere always gives a number, and so do the
others where they can be used. The exact kinds never give a number if a byte is missing. -/
theorem perform_fills_with_zeros (haddress : address + buffer.size ≤ Word.bound) :
    (∀ mode v, perform width buffer address mode pos lo hi = .ok v →
      v < 1 <<< (8 * width.bytes) ∧ ∀ k, k < width.bytes →
        (digits width.bytes v)[k]? = some (validByte buffer lo hi (pos + k))) ∧
    (∃ v, perform width buffer address .anywhere pos lo hi = .ok v) ∧
    (lo ≤ pos → ∃ v, perform width buffer address .forward pos lo hi = .ok v) ∧
    (pos + width.bytes ≤ hi → hi ≤ Signed.largest →
      ∃ v, perform width buffer address .backward pos lo hi = .ok v) ∧
    (lo ≤ pos → pos + width.bytes ≤ hi → hi ≤ buffer.size →
      (∃ v, perform width buffer address .exact pos lo hi = .ok v) ∧
      ((address + pos) % width.bytes = 0 →
        ∃ v, perform width buffer address .aligned pos lo hi = .ok v)) ∧
    (¬(lo ≤ pos ∧ pos + width.bytes ≤ hi ∧ 0 ≤ pos ∧ pos + width.bytes ≤ buffer.size) →
      Checked.Fails (perform width buffer address .exact pos lo hi) ∧
      Checked.Fails (perform width buffer address .aligned pos lo hi)) := by
  refine ⟨fun mode v => bytes_of_perform hbuffer hpos, ?_, ?_, exists_backward hbuffer hpos, ?_, ?_⟩
  · exact ⟨_, cautious_eq hpos (by omega)⟩
  · intro hlo
    obtain ⟨p, rfl⟩ : ∃ p : Nat, pos = p := ⟨pos.toNat, by omega⟩
    exact ⟨_, (unsigned_bind p _).trans (forward_eq (by omega) (by omega))⟩
  · intro hlo hhi hsize
    obtain ⟨p, rfl⟩ : ∃ p : Nat, pos = p := ⟨pos.toNat, by omega⟩
    have hexact := exact_eq (show lo ≤ p by omega) (show p + width.bytes ≤ hi by omega)
      (show p + width.bytes ≤ buffer.size by omega)
    refine ⟨⟨_, (unsigned_bind p _).trans hexact⟩, fun haligned => ?_⟩
    have hwidth := bytes_pos width
    have hmultiple : (address + p) % width.bytes = 0 := by exact_mod_cast haligned
    exact ⟨_, (unsigned_bind p _).trans ((aligned_eq (by omega) hmultiple).trans hexact)⟩
  · intro hmissing
    have hnot (mode : LoadMode) (hmode : mode = .exact ∨ mode = .aligned) :
        Checked.Fails (perform width buffer address mode pos lo hi) := by
      rcases h : perform width buffer address mode pos lo hi with fault | v
      · exact ⟨fault, rfl⟩
      · obtain ⟨p, rfl, hp⟩ := of_perform_eq_ok hmode h
        obtain ⟨hlo, hhi, hsize⟩ := of_exact_eq_ok hp
        exact absurd ⟨by omega, by omega, by omega, by omega⟩ hmissing
    exact ⟨hnot .exact (Or.inl rfl), hnot .aligned (Or.inr rfl)⟩

end Perform

/-- Four bytes from two positions before a buffer of three bytes, of which two are valid. -/
theorem perform_before_start : ∃ v,
    perform .four (ofList [1, 2, 3]) 16 .backward (-2) 0 2 = .ok v ∧
      v < 1 <<< (8 * LoadWidth.four.bytes) ∧ digits 4 v = [0, 0, 1, 2] ∧
      Checked.Fails (perform .four (ofList [1, 2, 3]) 16 .exact (-2) 0 2) := by
  obtain ⟨hfills, -, -, hbackward, -, hfails⟩ := @perform_fills_with_zeros .four (ofList [1, 2, 3])
    (-2) 0 2 16 (by decide) (by decide) (by decide)
  obtain ⟨v, hv⟩ := hbackward (by decide) (by decide)
  obtain ⟨hlt, hbytes⟩ := hfills .backward v hv
  refine ⟨v, hv, hlt, ?_, (hfails (by decide)).1⟩
  apply List.ext_getElem?
  intro k
  rcases k with _ | _ | _ | _ | k
  · exact hbytes 0 (by decide)
  · exact hbytes 1 (by decide)
  · exact hbytes 2 (by decide)
  · exact hbytes 3 (by decide)
  · rfl

end StreamMatch.Load
