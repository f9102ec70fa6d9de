-- The input of a scan shows the last bytes of a stream that were scanned, and
-- those of the chunk. What is read at an offset is what the stream has there,
-- on both sides of the start of the chunk.
import StreamMatch.Proofs.ByteClass.Leading
import StreamMatch.Proofs.State.Fields
import StreamMatch.Scan.Input

namespace StreamMatch

open Bytes

/-- A run in a part of a stream is one of the stream, as far as the part goes. -/
theorem PartOf.stopsAt {stream part : Bytes} {start i stop : Nat} {c : ByteClass}
    (hp : PartOf stream start part) (h : c.StopsAt part part.size i stop) :
    c.StopsAt stream (start + part.size) (start + i) (start + stop) := by
  have hle := h.stop_le
  have hi := h.le_stop
  refine ⟨by omega, by omega, ?_, ?_⟩
  · intro k hk hlt
    have hb := hp.byteAt_eq (k - start) (by omega)
    rw [show start + (k - start) = k by omega] at hb
    rw [← hb]
    exact h.inside (k - start) (by omega) (by omega)
  · intro hlt
    rw [← hp.byteAt_eq stop (by omega)]
    exact h.outside (by omega)

namespace Input

/-- The offset that follows the last byte of the chunk. -/
def stop (i : Input) : Nat := i.chunkStart + i.data.size

/-- The history followed by the chunk. -/
def seen (i : Input) : Bytes := i.history ++ i.data

variable {i : Input} {stream : Bytes} {c : ByteClass} {offset len : Nat}

theorem floor_add (i : Input) : i.floor + i.history.size = i.chunkStart := by
  have := i.history_le
  unfold floor
  omega

theorem size_seen (i : Input) : i.seen.size = i.history.size + i.data.size :=
  ByteArray.size_append

/-! ## The bytes seen -/

theorem history_partOf_seen (i : Input) : PartOf i.seen 0 i.history := .prefix_of_append _ _

theorem data_partOf_seen (i : Input) : PartOf i.seen i.history.size i.data := by
  have hpart := (PartOf.refl i.seen).of_append_right
  rwa [Nat.zero_add] at hpart

theorem byteAt_seen (hf : i.floor ≤ offset) (he : offset < i.stop) :
    i.byteAt offset = .ok (Bytes.byteAt i.seen (offset - i.floor)) := by
  have hfloor := i.floor_add
  unfold stop at he
  unfold byteAt
  split
  · next hc =>
    rw [getElem?_eq_byteAt (show offset - i.chunkStart < i.data.size by omega),
      i.data_partOf_seen.byteAt_eq _ (by omega),
      show i.history.size + (offset - i.chunkStart) = offset - i.floor by omega]
    rfl
  · unfold historyPos
    rw [Word.sub_eq_ok hf, Checked.ok_bind,
      getElem?_eq_byteAt (show offset - i.floor < i.history.size by omega),
      i.history_partOf_seen.byteAt_eq _ (by omega), Nat.zero_add]
    rfl

theorem bytesAt_seen (hf : i.floor ≤ offset) (he : offset + len ≤ i.stop) :
    i.bytesAt offset len = .ok (i.seen.slice (offset - i.floor) len) := by
  have hfloor := i.floor_add
  suffices h : ∃ bytes, i.bytesAt offset len = .ok bytes ∧ bytes.size = len ∧
      PartOf i.seen (offset - i.floor) bytes by
    obtain ⟨bytes, hbytes, rfl, hpart⟩ := h
    rw [hbytes, ← hpart.eq_slice]
  unfold stop at he
  unfold bytesAt
  by_cases hc : offset < i.chunkStart
  · -- The bytes start in the history, and may go on in the chunk.
    have hmin : offset - i.floor + min len (i.history.size - (offset - i.floor)) ≤
        i.history.size := by omega
    have hhead := i.history_partOf_seen.slice _ _ hmin
    rw [Nat.zero_add] at hhead
    have hsize := size_slice_of_le hmin
    unfold historyPos
    rw [if_pos hc, Word.sub_eq_ok hf]
    simp only [Checked.ok_bind, sliceWithin_eq_ok hmin]
    by_cases hrest : len - min len (i.history.size - (offset - i.floor)) = 0
    · rw [if_pos hrest]
      exact ⟨_, rfl, by omega, hhead⟩
    · rw [if_neg hrest, sliceWithin_eq_ok (by omega), Checked.ok_bind]
      have htail := i.data_partOf_seen.slice (offset + min len (i.history.size -
        (offset - i.floor)) - i.chunkStart) (len - min len (i.history.size - (offset - i.floor)))
        (by omega)
      refine ⟨_, rfl, ?_, hhead.append ?_⟩
      · rw [ByteArray.size_append, hsize, size_slice_of_le (by omega)]
        omega
      · rw [hsize]
        rwa [show i.history.size + (offset + min len (i.history.size - (offset - i.floor)) -
          i.chunkStart) = offset - i.floor + min len (i.history.size - (offset - i.floor)) by
          omega] at htail
  · rw [if_neg hc]
    by_cases hz : len = 0
    · rw [if_pos hz]
      exact ⟨.empty, rfl, hz.symm, PartOf.empty (by rw [size_seen]; omega)⟩
    · rw [if_neg hz, sliceWithin_eq_ok (by omega)]
      have hpart := i.data_partOf_seen.slice (offset - i.chunkStart) len (by omega)
      rw [show i.history.size + (offset - i.chunkStart) = offset - i.floor by omega] at hpart
      exact ⟨_, rfl, size_slice_of_le (by omega), hpart⟩

/-- A run that starts in the history can go on in the chunk. -/
theorem runLength_seen (c : ByteClass) (hf : i.floor ≤ offset) (he : offset ≤ i.stop)
    (hhistory : i.history.size < sizeBound) (hdata : i.data.size < sizeBound) :
    ∃ n, i.runLength offset c = .ok n ∧
      c.StopsAt i.seen i.seen.size (offset - i.floor) (offset - i.floor + n) := by
  have hfloor := i.floor_add
  have hsize := i.size_seen
  unfold stop at he
  unfold runLength
  by_cases hc : offset < i.chunkStart
  · obtain ⟨n, hn, hstop⟩ := ByteClass.leadingFrom_spec (c := c)
      (show offset - i.floor ≤ i.history.size by omega) hhistory
    have hrun := i.history_partOf_seen.stopsAt hstop
    simp only [Nat.zero_add] at hrun
    unfold historyPos
    rw [if_pos hc, Word.sub_eq_ok hf]
    simp only [Checked.ok_bind, hn]
    by_cases hend : n < i.history.size - (offset - i.floor)
    · -- The run ends in the history.
      rw [if_pos hend]
      refine ⟨n, rfl, hrun.le_stop, ?_, hrun.inside, fun _ => hrun.outside (by omega)⟩
      have := hrun.stop_le
      omega
    · obtain ⟨m, hm, hstop'⟩ := ByteClass.leadingFrom_spec (c := c) (Nat.zero_le i.data.size)
        hdata
      have hrun' := i.data_partOf_seen.stopsAt hstop'
      have hle := hstop.stop_le
      unfold ByteClass.leading
      rw [if_neg hend, hm, hsize]
      refine ⟨n + m, rfl, ?_⟩
      rw [show offset - i.floor + (n + m) = i.history.size + (0 + m) by omega]
      refine hrun'.step (by omega) ?_
      intro k hk hlt
      exact hrun.inside k hk (by omega)
  · obtain ⟨n, hn, hstop⟩ := ByteClass.leadingFrom_spec (c := c)
      (show offset - i.chunkStart ≤ i.data.size by omega) hdata
    have hrun := i.data_partOf_seen.stopsAt hstop
    rw [show i.history.size + (offset - i.chunkStart) = offset - i.floor by omega,
      show i.history.size + (offset - i.chunkStart + n) = offset - i.floor + n by omega,
      ← hsize] at hrun
    rw [if_neg hc]
    exact ⟨n, hn, hrun⟩

/-- The bytes in a class are counted as the longest prefix of the bytes that are in it. What the
input gives at an offset is what the history followed by the chunk has there. -/
theorem reads_concatenation (c : ByteClass) (i : Input) (hhistory : i.history.size < sizeBound)
    (hdata : i.data.size < sizeBound) :
    (∀ bytes : Bytes, bytes.size < sizeBound →
      c.leading bytes = .ok (bytes.toList.takeWhile c.contains).length) ∧
    (∀ offset, i.floor ≤ offset → offset ≤ i.stop →
      i.runLength offset c =
        .ok (((i.history.toList ++ i.data.toList).drop (offset - i.floor)).takeWhile
          c.contains).length) ∧
    (∀ offset, i.floor ≤ offset → offset < i.stop →
      ∃ b, (i.history.toList ++ i.data.toList)[offset - i.floor]? = some b ∧
        i.byteAt offset = .ok b) ∧
    (∀ offset len, i.floor ≤ offset → offset + len ≤ i.stop →
      ∃ bytes, i.bytesAt offset len = .ok bytes ∧ bytes.toList =
        ((i.history.toList ++ i.data.toList).drop (offset - i.floor)).take len) := by
  have hseen : i.history.toList ++ i.data.toList = i.seen.toList := (toList_append _ _).symm
  have hsize := i.size_seen
  have hfloor := i.floor_add
  have hstop : i.stop = i.chunkStart + i.data.size := rfl
  rw [hseen]
  refine ⟨fun bytes hlt => ?_, fun offset hf he => ?_, fun offset hf he => ?_,
    fun offset len hf he => ?_⟩
  · exact ByteClass.leadingFrom_eq (Nat.zero_le _) hlt
  · obtain ⟨n, hn, hrun⟩ := runLength_seen c hf he hhistory hdata
    rw [hn, hrun.length_takeWhile, Nat.add_sub_cancel_left]
  · refine ⟨_, ?_, byteAt_seen hf he⟩
    rw [toList, Array.getElem?_toList]
    exact getElem?_eq_byteAt (show offset - i.floor < i.seen.size by omega)
  · exact ⟨_, bytesAt_seen hf he, toList_slice _ _ _⟩

/-- The bytes `a`, 0, 0, 0, `b`, of which the last three are the chunk. -/
def zerosAcross : Input where
  history := .ofList [97, 0]
  data := .ofList [0, 0, 98]
  chunkStart := 7
  history_le := by decide

/-- A run of zeros goes on in the chunk. The zeros after the end of a string are not counted. -/
theorem zerosAcross_reads :
    zerosAcross.history.size < sizeBound ∧ zerosAcross.data.size < sizeBound ∧
    (ByteClass.single 0).leading (.ofList [0, 0, 0]) = .ok 3 ∧
    zerosAcross.runLength 6 (.single 0) = .ok 3 ∧ zerosAcross.byteAt 7 = .ok 0 ∧
    ∃ bytes, zerosAcross.bytesAt 5 4 = .ok bytes ∧ bytes.toList = [97, 0, 0, 0] := by
  obtain ⟨hleading, hrun, hbyte, hbytes⟩ :=
    reads_concatenation (.single 0) zerosAcross (by decide) (by decide)
  refine ⟨by decide, by decide, hleading _ (by decide), hrun 6 (by decide) (by decide), ?_,
    hbytes 5 4 (by decide) (by decide)⟩
  obtain ⟨b, hb, hread⟩ := hbyte 7 (by decide) (by decide)
  cases hb
  exact hread

/-! ## Parts of a stream -/

/-- The history and the chunk are consecutive parts of a stream. -/
structure Shows (i : Input) (stream : Bytes) : Prop where
  history : PartOf stream i.floor i.history
  data : PartOf stream i.chunkStart i.data

theorem Shows.partOf_seen (h : i.Shows stream) : PartOf stream i.floor i.seen := by
  refine h.history.append ?_
  rw [i.floor_add]
  exact h.data

theorem byteAt_eq (h : i.Shows stream) (hf : i.floor ≤ offset)
    (he : offset < i.chunkStart + i.data.size) :
    i.byteAt offset = .ok (Bytes.byteAt stream offset) := by
  have hfloor := i.floor_add
  have hsize := i.size_seen
  rw [byteAt_seen hf he, h.partOf_seen.byteAt_eq _ (by omega), Nat.add_sub_cancel' hf]

theorem bytesAt_spec (h : i.Shows stream) (hf : i.floor ≤ offset)
    (he : offset + len ≤ i.chunkStart + i.data.size) :
    ∃ bytes, i.bytesAt offset len = .ok bytes ∧ bytes.size = len ∧
      PartOf stream offset bytes := by
  have hfloor := i.floor_add
  have hsize := i.size_seen
  have hle : offset - i.floor + len ≤ i.seen.size := by omega
  have hpart := h.partOf_seen.slice _ _ hle
  rw [Nat.add_sub_cancel' hf] at hpart
  exact ⟨_, bytesAt_seen hf he, size_slice_of_le hle, hpart⟩

theorem runLength_spec (h : i.Shows stream) (c : ByteClass) (hf : i.floor ≤ offset)
    (he : offset ≤ i.chunkStart + i.data.size) (hlt : stream.size < sizeBound) :
    ∃ n, i.runLength offset c = .ok n ∧
      c.StopsAt stream (i.chunkStart + i.data.size) offset (offset + n) := by
  have hfloor := i.floor_add
  have hsize := i.size_seen
  have hhistory := h.history.le_size
  have hdata := h.data.le_size
  obtain ⟨n, hn, hstop⟩ := runLength_seen c hf he (by omega) (by omega)
  have hrun := h.partOf_seen.stopsAt hstop
  rw [Nat.add_sub_cancel' hf, show i.floor + (offset - i.floor + n) = offset + n by omega,
    show i.floor + i.seen.size = i.chunkStart + i.data.size by omega] at hrun
  exact ⟨n, hn, hrun⟩

/-- How far a run goes on in the chunk. -/
theorem leading_spec (h : i.Shows stream) (c : ByteClass) (hlt : stream.size < sizeBound) :
    ∃ n, c.leading i.data = .ok n ∧ n ≤ i.data.size ∧
      c.StopsAt stream (i.chunkStart + i.data.size) i.chunkStart (i.chunkStart + n) := by
  have hdata := h.data.le_size
  obtain ⟨n, hn, hstop⟩ := ByteClass.leadingFrom_spec (c := c) (Nat.zero_le i.data.size) (by omega)
  have hrun := h.data.stopsAt hstop
  have hle := hstop.stop_le
  rw [Nat.add_zero, Nat.zero_add] at hrun
  exact ⟨n, hn, by omega, hrun⟩

end Input

end StreamMatch
