-- The fields of a stream state: each is read back as it was written, and a
-- write stays within its field. The history holds the last bytes of the stream.
import StreamMatch.Proofs.Bytes.Fields
import StreamMatch.Proofs.Checked
import StreamMatch.State.Fields

namespace StreamMatch

open Bytes

/-! ## Bytes of a stream -/

/-- The bytes of `part` are those of a stream from an offset on. -/
structure PartOf (stream : Bytes) (start : Nat) (part : Bytes) : Prop where
  le_size : start + part.size ≤ stream.size
  byteAt_eq : ∀ i, i < part.size → byteAt part i = byteAt stream (start + i)

namespace PartOf

variable {stream a b : Bytes} {start : Nat}

theorem append (ha : PartOf stream start a) (hb : PartOf stream (start + a.size) b) :
    PartOf stream start (a ++ b) := by
  refine ⟨?_, ?_⟩
  · have := hb.le_size
    rw [ByteArray.size_append]
    omega
  · intro i hi
    rw [ByteArray.size_append] at hi
    rw [byteAt_append]
    split
    · next h => exact ha.byteAt_eq i h
    · next h =>
      rw [hb.byteAt_eq (i - a.size) (by omega)]
      congr 1
      omega

theorem slice (h : PartOf stream start a) (pos len : Nat) (hle : pos + len ≤ a.size) :
    PartOf stream (start + pos) (a.slice pos len) := by
  have hs := size_slice_of_le hle
  have := h.le_size
  refine ⟨by omega, ?_⟩
  intro i hi
  rw [hs] at hi
  rw [byteAt_slice hi hle, h.byteAt_eq (pos + i) (by omega), Nat.add_assoc]

theorem prefix_of_append (a b : Bytes) : PartOf (a ++ b) 0 a := by
  refine ⟨?_, ?_⟩
  · rw [ByteArray.size_append]
    omega
  · intro i hi
    rw [Nat.zero_add, byteAt_append_left hi]

theorem refl (stream : Bytes) : PartOf stream 0 stream :=
  ⟨by omega, fun i _ => by rw [Nat.zero_add]⟩

theorem empty (h : start ≤ stream.size) : PartOf stream start .empty :=
  ⟨h, fun i hi => absurd hi (Nat.not_lt_zero i)⟩

/-- A part is the bytes that the stream has there. -/
theorem eq_slice (h : PartOf stream start a) : a = stream.slice start a.size := by
  have hle := h.le_size
  symm
  rw [slice_eq_iff hle]
  exact fun i hi => (h.byteAt_eq i hi).symm

/-- What follows the bytes before an offset starts there. -/
theorem of_append_right {c : Bytes} (h : PartOf stream start (a ++ c)) :
    PartOf stream (start + a.size) c := by
  have hle := h.le_size
  rw [ByteArray.size_append] at hle
  refine ⟨by omega, fun i hi => ?_⟩
  have hb := h.byteAt_eq (a.size + i) (by rw [ByteArray.size_append]; omega)
  rw [byteAt_append, if_neg (by omega), Nat.add_sub_cancel_left] at hb
  rw [hb, Nat.add_assoc]

theorem of_append_left {c : Bytes} (h : PartOf stream start (a ++ c)) : PartOf stream start a := by
  have hle := h.le_size
  rw [ByteArray.size_append] at hle
  refine ⟨by omega, fun i hi => ?_⟩
  rw [← h.byteAt_eq i (by rw [ByteArray.size_append]; omega), byteAt_append_left hi]

/-- Bytes before an offset and bytes after it are those of some stream. -/
theorem exists_stream {n : Nat} (h : a.size ≤ n) (b : Bytes) :
    ∃ stream : Bytes, stream.size = n + b.size ∧ PartOf stream (n - a.size) a ∧
      PartOf stream n b := by
  have hbefore : (zeros (n - a.size)).size = n - a.size := zeros_size _
  have hall := PartOf.refl (zeros (n - a.size) ++ a ++ b)
  have hleft := hall.of_append_left.of_append_right
  have hright := hall.of_append_right
  simp only [ByteArray.size_append, hbefore, Nat.zero_add, Nat.sub_add_cancel h] at hleft hright
  refine ⟨_, ?_, hleft, hright⟩
  rw [ByteArray.size_append, ByteArray.size_append, hbefore, Nat.sub_add_cancel h]

end PartOf

namespace StreamState

variable {region : Bytes} {layout : Layout}

/-! ## Fields of a fixed size -/

/-- The number in the field of the stream offset. -/
def offsetOf (region : Bytes) : Nat := region.readNumber 8 8

/-- The key in the field of the resume key. -/
def resumeOf (region : Bytes) : Key := ⟨region.readNumber 16 8, region.readNumber 24 4⟩

theorem offset_eq (h : 32 ≤ region.size) : offset region = .ok (offsetOf region) := by
  unfold offset
  rw [decide_eq_true (show Layout.historyAt ≤ region.size from h), Checked.require_true,
    Checked.ok_bind, readWithin_eq_ok (by omega)]
  rfl

theorem resume_eq (h : 32 ≤ region.size) : resume region = .ok (resumeOf region) := by
  unfold resume
  rw [readWithin_eq_ok (by omega), readWithin_eq_ok (by omega)]
  rfl

theorem isTerminated_eq (h : 32 ≤ region.size) :
    isTerminated region = .ok (region.readNumber 28 1 % 2 == 1) := by
  unfold isTerminated flags
  rw [decide_eq_true (show Layout.historyAt ≤ region.size from h), Checked.require_true,
    Checked.ok_bind, readWithin_eq_ok (by omega)]
  rfl

theorem setOffset_spec {n : Nat} (h : 32 ≤ region.size) (hn : n < Word.bound) :
    ∃ region', setOffset region n = .ok region' ∧ AgreeOutside 8 8 region region' ∧
      offsetOf region' = n := by
  refine ⟨region.writeNumber 8 8 n, writeWithin_eq_ok (by omega),
    agreeOutside_writeNumber _ _ _ _, ?_⟩
  unfold offsetOf
  rw [readNumber_writeNumber _ _ _ n (by omega)]
  exact Nat.mod_eq_of_lt hn

theorem setResume_spec {key : Key} (h : 32 ≤ region.size) (he : key.endsAt < Word.bound)
    (hr : key.rank < 0x100000000) :
    ∃ region', setResume region key = .ok region' ∧ AgreeOutside 16 12 region region' ∧
      resumeOf region' = key := by
  have a₁ := agreeOutside_writeNumber region 16 8 key.endsAt
  have a₂ := agreeOutside_writeNumber (region.writeNumber 16 8 key.endsAt) 24 4 key.rank
  refine ⟨(region.writeNumber 16 8 key.endsAt).writeNumber 24 4 key.rank, ?_, ?_, ?_⟩
  · unfold setResume
    rw [writeWithin_eq_ok (by omega), Checked.ok_bind,
      writeWithin_eq_ok (by rw [writeNumber_size]; omega)]
  · exact (a₁.mono (by omega) (by omega)).trans (a₂.mono (by omega) (by omega))
  · unfold resumeOf
    rw [a₂.readNumber_eq (by omega), readNumber_writeNumber _ _ _ _ (by omega),
      readNumber_writeNumber _ _ _ _ (by rw [writeNumber_size]; omega)]
    apply Key.ext
    · exact Nat.mod_eq_of_lt he
    · exact Nat.mod_eq_of_lt hr

theorem setTerminated_spec (h : 32 ≤ region.size) :
    ∃ region', setTerminated region = .ok region' ∧ AgreeOutside 28 1 region region' ∧
      region'.readNumber 28 1 = region.readNumber 28 1 / 2 * 2 + 1 := by
  have hlt := readNumber_lt region 28 1
  have hpow : 1 <<< (8 * 1) = 256 := rfl
  refine ⟨region.writeNumber 28 1 (region.readNumber 28 1 / 2 * 2 + 1), ?_,
    agreeOutside_writeNumber _ _ _ _, ?_⟩
  · unfold setTerminated flags
    rw [readWithin_eq_ok (by omega), Checked.ok_bind, writeWithin_eq_ok (by omega)]
  · rw [readNumber_writeNumber _ _ _ _ (by omega), hpow]
    omega

/-! ## History -/

/-- The history that a state holds. -/
def historyOf (region : Bytes) : Bytes := region.slice 32 (region.readNumber 30 2)

theorem history_eq (h : 32 + region.readNumber 30 2 ≤ region.size) :
    history region = .ok (historyOf region) := by
  unfold history historyLength
  rw [readWithin_eq_ok (by omega), Checked.ok_bind, sliceWithin_eq_ok (by exact h)]
  rfl

theorem size_keptHistory (size : Nat) (older newer : Bytes) :
    (keptHistory size older newer).size = min size (older.size + newer.size) := by
  unfold keptHistory
  simp only [ByteArray.size_append]
  rw [size_slice, size_slice]
  omega

/-- The last bytes of two parts of a stream, one after the other. None are taken from the
older part before all of the newer one are. -/
theorem partOf_last {stream older newer : Bytes} {start m n : Nat} (ho : PartOf stream start older)
    (hn : PartOf stream (start + older.size) newer) (hm : m ≤ older.size) (hle : n ≤ newer.size)
    (hall : m = 0 ∨ n = newer.size) :
    PartOf stream (start + older.size + newer.size - (m + n))
      (older.slice (older.size - m) m ++ newer.slice (newer.size - n) n) := by
  have hnewer := hn.slice (newer.size - n) n (by omega)
  rcases hall with rfl | rfl
  · rw [slice_zero, ByteArray.empty_append]
    rwa [show start + older.size + newer.size - (0 + n) =
      start + older.size + (newer.size - n) by omega]
  · have holder := ho.slice (older.size - m) m (by omega)
    rw [show start + older.size + newer.size - (m + newer.size) =
      start + (older.size - m) by omega]
    refine holder.append ?_
    rwa [size_slice_of_le (by omega), show start + (older.size - m) + m =
      start + older.size + (newer.size - newer.size) by omega]

/-- What is kept of two parts of a stream, one after the other, are the bytes
before their end. -/
theorem partOf_keptHistory {stream older newer : Bytes} {start : Nat} (size : Nat)
    (ho : PartOf stream start older) (hn : PartOf stream (start + older.size) newer) :
    PartOf stream (start + older.size + newer.size - min size (older.size + newer.size))
      (keptHistory size older newer) := by
  unfold keptHistory
  generalize hkeep : min size (older.size + newer.size) = keep
  have hpart := partOf_last ho hn (show keep - min keep newer.size ≤ older.size by omega)
    (Nat.min_le_right keep newer.size) (by omega)
  rwa [Nat.sub_add_cancel (Nat.min_le_left keep newer.size)] at hpart

theorem setHistory_spec (older newer : Bytes) (hs : layout.historySize ≤ 65535)
    (h : 32 + layout.historySize ≤ region.size) :
    ∃ region', setHistory layout region older newer = .ok region' ∧
      AgreeOutside 30 (2 + layout.historySize) region region' ∧
      region'.readNumber 30 2 = min layout.historySize (older.size + newer.size) ∧
      historyOf region' = keptHistory layout.historySize older newer := by
  have hk := size_keptHistory layout.historySize older newer
  have hpow : 1 <<< (8 * 2) = 65536 := rfl
  generalize hkept : keptHistory layout.historySize older newer = kept at *
  have a₁ := agreeOutside_overwrite region kept 32 (by omega)
  have r₁ := slice_overwrite region kept 32 (by omega)
  have s₁ := a₁.size_eq
  generalize ho : region.overwrite 32 kept = region₁ at *
  have a₂ := agreeOutside_writeNumber region₁ 30 2 kept.size
  have hlen : (region₁.writeNumber 30 2 kept.size).readNumber 30 2 = kept.size := by
    rw [readNumber_writeNumber _ _ _ _ (by omega), hpow]
    omega
  refine ⟨region₁.writeNumber 30 2 kept.size, ?_, ?_, by rw [hlen, hk], ?_⟩
  · unfold setHistory Layout.historyAt
    simp only [hkept]
    rw [overwriteWithin_eq_ok (by omega), Checked.ok_bind, ho]
    exact writeWithin_eq_ok (by omega)
  · exact (a₁.mono (by omega) (by omega)).trans (a₂.mono (by omega) (by omega))
  · unfold historyOf
    rw [hlen, a₂.slice_eq (by omega) (by omega), r₁]

/-! ## Patterns -/

/-- The entry of a pattern that a state holds. -/
def entryOf (layout : Layout) (region : Bytes) (i : Nat) : PatternEntry :=
  .ofWord (region.word (Layout.patternAt layout.historySize i))

theorem pattern_eq {i : Nat} (h : Layout.patternAt layout.historySize i + 8 ≤ region.size) :
    pattern layout region i = .ok (entryOf layout region i) := by
  unfold pattern
  rw [wordWithin_eq_ok h]
  rfl

theorem entryOf_eq (i : Nat) : entryOf layout region i =
    ⟨predecessor? (readWord region (Layout.patternAt layout.historySize i) %
        PatternEntry.exhaustedBit),
      decide (PatternEntry.exhaustedBit ≤
        readWord region (Layout.patternAt layout.historySize i))⟩ := by
  unfold entryOf
  rw [PatternEntry.ofWord_eq]
  rfl

theorem entryOf_frame {region' : Bytes} {pos len i : Nat} (hs : AgreeOutside pos len region region')
    (hd : Layout.patternAt layout.historySize i + 8 ≤ pos ∨
      pos + len ≤ Layout.patternAt layout.historySize i) :
    entryOf layout region' i = entryOf layout region i := by
  rw [entryOf_eq, entryOf_eq, hs.readWord_eq hd]

/-- An entry is written as the end of the last match plus one, and a bit above it. -/
theorem toNumber_spec {entry : PatternEntry}
    (hlast : ∀ last, entry.lastEnd = some last → last + 1 < PatternEntry.exhaustedBit) :
    ∃ n, entry.toNumber = .ok (n + if entry.exhausted then PatternEntry.exhaustedBit else 0) ∧
      n < PatternEntry.exhaustedBit ∧ predecessor? n = entry.lastEnd := by
  have hbit : PatternEntry.exhaustedBit = 0x8000000000000000 := rfl
  have hbound : Word.bound = 0x10000000000000000 := rfl
  obtain ⟨lastEnd, exhausted⟩ := entry
  unfold PatternEntry.toNumber
  rcases lastEnd with _ | last
  · refine ⟨0, ?_, by omega, rfl⟩
    cases exhausted <;> rfl
  · have hlt := hlast last rfl
    refine ⟨last + 1, ?_, hlt, rfl⟩
    simp only [Word.add_eq_ok (show last + 1 < Word.bound by omega), Checked.ok_bind,
      Nat.mod_eq_of_lt hlt]
    cases exhausted <;> rfl

theorem setPattern_spec {i : Nat} {entry : PatternEntry}
    (h : Layout.patternAt layout.historySize i + 8 ≤ region.size)
    (hlast : ∀ last, entry.lastEnd = some last → last + 1 < PatternEntry.exhaustedBit) :
    ∃ region', setPattern layout region i entry = .ok region' ∧
      AgreeOutside (Layout.patternAt layout.historySize i) 8 region region' ∧
      entryOf layout region' i = entry := by
  have hbit : PatternEntry.exhaustedBit = 0x8000000000000000 := rfl
  have hbound : Word.bound = 0x10000000000000000 := rfl
  obtain ⟨n, hnum, hlt, hread⟩ := toNumber_spec hlast
  obtain ⟨lastEnd, exhausted⟩ := entry
  refine ⟨region.writeNumber (Layout.patternAt layout.historySize i) 8
    (n + if exhausted then PatternEntry.exhaustedBit else 0), ?_,
    agreeOutside_writeNumber _ _ _ _, ?_⟩
  · unfold setPattern
    rw [hnum, Checked.ok_bind, writeWithin_eq_ok h]
  · rw [entryOf_eq, readWord_writeNumber _ _ _ h (by split <;> omega)]
    cases exhausted
    · simp only [Bool.false_eq_true, if_false, Nat.add_zero, Nat.mod_eq_of_lt hlt, hread]
      rw [decide_eq_false (by omega)]
    · simp only [if_true, Nat.add_mod_right, Nat.mod_eq_of_lt hlt, hread]
      rw [decide_eq_true (by omega)]

end StreamState

end StreamMatch
