-- The parts of a stream state do not overlap: the states of the repeats come
-- after the entries of the patterns, one after the other.
import StreamMatch.Proofs.Checked
import StreamMatch.State.Layout

namespace StreamMatch.Layout

/-- The place of a repeat in a layout that has one for it. -/
def place (layout : Layout) (r : Repeat) : Tracker :=
  ⟨r, (layout.repeats[r.id.toNat]?.map Extent.start).getD 0⟩

/-- The parts of a layout have the sizes they need, and do not overlap. -/
structure Sound (layout : Layout) (repeats : Array Repeat) : Prop where
  historySize_pos : 0 < layout.historySize
  historySize_le : layout.historySize ≤ 65535
  patterns_le : patternAt layout.historySize layout.patternCount ≤ layout.size
  repeats_size : repeats.size = layout.repeats.size
  extent : ∀ r ∈ repeats, layout.repeats[r.id.toNat]? = some ⟨(layout.place r).base, r.stateSize⟩
  patterns_before : ∀ r ∈ repeats,
    patternAt layout.historySize layout.patternCount ≤ (layout.place r).base
  inside : ∀ r ∈ repeats, (layout.place r).base + r.stateSize ≤ layout.size
  apart : ∀ r ∈ repeats, ∀ r' ∈ repeats, r ≠ r' →
    (layout.place r).base + r.stateSize ≤ (layout.place r').base ∨
      (layout.place r').base + r'.stateSize ≤ (layout.place r).base

theorem tracker_eq_place {layout : Layout} {repeats : Array Repeat} {r : Repeat} {region : Bytes}
    (h : layout.Sound repeats) (hr : r ∈ repeats) (hs : region.size = layout.size) :
    layout.tracker r region = .ok (layout.place r) := by
  have hin := h.inside r hr
  unfold tracker
  rw [h.extent r hr]
  simp only [Checked.some?, Extent.stop, hs, Checked.ok_bind, beq_self_eq_true,
    decide_eq_true hin, Checked.require_true]
  rfl

theorem Sound.header_le {layout : Layout} {rs : Array Repeat} {region : Bytes} (h : layout.Sound rs)
    (hsize : region.size = layout.size) :
    32 + layout.historySize + 8 * layout.patternCount ≤ region.size := by
  rw [hsize]
  exact h.patterns_le

theorem Sound.fixed_le {layout : Layout} {rs : Array Repeat} {region : Bytes} (h : layout.Sound rs)
    (hsize : region.size = layout.size) :
    32 ≤ region.size := by
  have hheader := h.header_le hsize
  omega

/-! ## Consecutive parts -/

/-- The position after some consecutive parts. -/
def after (start : Nat) (sizes : List Nat) : Nat := sizes.foldl (· + ·) start

theorem le_after (start : Nat) (sizes : List Nat) : start ≤ after start sizes := by
  unfold after
  induction sizes generalizing start with
  | nil => exact Nat.le_refl _
  | cons size rest ih => exact Nat.le_trans (Nat.le_add_right _ _) (ih (start + size))

theorem after_append (start : Nat) (a b : List Nat) :
    after start (a ++ b) = after (after start a) b := by
  unfold after
  exact List.foldl_append

theorem extentsFrom_getElem? (start : Nat) (sizes : List Nat) (i : Nat) :
    (extentsFrom start sizes)[i]? =
      sizes[i]?.map fun size => ⟨after start (sizes.take i), size⟩ := by
  induction sizes generalizing start i with
  | nil => rfl
  | cons size rest ih =>
    cases i with
    | zero => rfl
    | succ i => simpa [extentsFrom, after] using ih (start + size) i

/-- A part ends before each later part starts. -/
theorem after_take_le {sizes : List Nat} {i j size : Nat} (start : Nat) (hi : sizes[i]? = some size)
    (hij : i < j) : after start (sizes.take i) + size ≤ after start (sizes.take j) := by
  obtain ⟨hlt, hget⟩ := List.getElem?_eq_some_iff.mp hi
  have hsplit : sizes.take j = sizes.take i ++ (size :: (sizes.take j).drop (i + 1)) := by
    have htake : sizes.take i = (sizes.take j).take i := by
      rw [List.take_take, Nat.min_eq_left (by omega)]
    have hj : i < (sizes.take j).length := by
      rw [List.length_take]
      omega
    have hcons : size :: (sizes.take j).drop (i + 1) = (sizes.take j).drop i := by
      rw [List.drop_eq_getElem_cons hj, List.getElem_take, hget]
    rw [htake, hcons, List.take_append_drop]
  rw [hsplit, after_append]
  exact le_after _ _

section OfParts

variable {historySize patternCount : Nat} {repeats : List Repeat}

theorem repeats_ofParts_getElem? {i : Nat} {r : Repeat} (hr : repeats[i]? = some r) :
    (ofParts historySize patternCount repeats).repeats[i]? =
      some ⟨after (patternAt historySize patternCount)
        ((repeats.map Repeat.stateSize).take i), r.stateSize⟩ := by
  unfold ofParts
  simp [extentsFrom_getElem?, hr]

/-- The state of a repeat comes after those of the repeats with smaller numbers. -/
theorem exists_place (hid : ∀ (i : Nat) (r : Repeat), repeats[i]? = some r → r.id.toNat = i)
    {r : Repeat} (hr : r ∈ repeats.toArray) :
    ∃ i, repeats[i]? = some r ∧ (repeats.map Repeat.stateSize)[i]? = some r.stateSize ∧
      r.id.toNat = i ∧ ((ofParts historySize patternCount repeats).place r).base =
        after (patternAt historySize patternCount) ((repeats.map Repeat.stateSize).take i) := by
  obtain ⟨i, hi⟩ := List.mem_iff_getElem?.mp (List.mem_toArray.mp hr)
  refine ⟨i, hi, by rw [List.getElem?_map, hi, Option.map_some], hid i r hi, ?_⟩
  unfold place
  rw [hid i r hi, repeats_ofParts_getElem? hi]
  rfl

theorem ofParts_sound (hpos : 0 < historySize) (hle : historySize ≤ 65535)
    (hid : ∀ (i : Nat) (r : Repeat), repeats[i]? = some r → r.id.toNat = i) :
    (ofParts historySize patternCount repeats).Sound repeats.toArray := by
  refine ⟨hpos, hle, le_after _ _, ?_, ?_, ?_, ?_, ?_⟩
  · simp [ofParts, extentsFrom_length]
  · intro r hr
    obtain ⟨i, hi, -, hnumber, hbase⟩ := exists_place hid hr
    rw [hnumber, hbase, repeats_ofParts_getElem? hi]
  · intro r hr
    obtain ⟨i, -, -, -, hbase⟩ := exists_place hid hr
    rw [hbase]
    exact le_after _ _
  · intro r hr
    obtain ⟨i, hi, hsize, -, hbase⟩ := exists_place hid hr
    have hlt : i < repeats.length := (List.getElem?_eq_some_iff.mp hi).1
    have htake : (repeats.map Repeat.stateSize).take repeats.length =
        repeats.map Repeat.stateSize := List.take_of_length_le (by simp)
    have hall := after_take_le (patternAt historySize patternCount) hsize hlt
    rw [htake] at hall
    rw [hbase]
    exact hall
  · intro r hr r' hr' hne
    obtain ⟨i, hi, hsize, -, hbase⟩ := exists_place hid hr
    obtain ⟨j, hj, hsize', -, hbase'⟩ := exists_place hid hr'
    rw [hbase, hbase']
    rcases Nat.lt_trichotomy i j with hij | rfl | hij
    · exact Or.inl (after_take_le _ hsize hij)
    · exact absurd (Option.some.inj (hi.symm.trans hj)) hne
    · exact Or.inr (after_take_le _ hsize' hij)

end OfParts

end StreamMatch.Layout
