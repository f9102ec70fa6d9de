-- The fields of a stream state are independent: their ranges follow one another without a gap,
-- and whatever changes one field leaves the bytes of all the others as they are.
import StreamMatch.Proofs.Repeat.Operations
import StreamMatch.Proofs.State.Fields
import StreamMatch.Proofs.State.Layout

namespace StreamMatch

open Bytes

/-! ## Consecutive ranges -/

/-- The first range begins at `start`, each other one where the one before ends, and the last one
ends at `stop`. -/
def Consecutive (start stop : Nat) : List Extent → Prop
  | [] => start = stop
  | e :: rest => e.start = start ∧ Consecutive e.stop stop rest

namespace Consecutive

variable {start mid stop : Nat} {es es' : List Extent}

theorem append (h : Consecutive start mid es) (h' : Consecutive mid stop es') :
    Consecutive start stop (es ++ es') := by
  induction es generalizing start with
  | nil =>
    cases h
    exact h'
  | cons e rest ih => exact ⟨h.1, ih h.2⟩

theorem le (h : Consecutive start stop es) : start ≤ stop := by
  induction es generalizing start with
  | nil => exact Nat.le_of_eq h
  | cons e rest ih =>
    have hle := ih h.2
    rw [← h.1]
    exact Nat.le_trans (Nat.le_add_right _ _) hle

theorem inside (h : Consecutive start stop es) : ∀ e ∈ es, start ≤ e.start ∧ e.stop ≤ stop := by
  induction es generalizing start with
  | nil => exact fun e he => absurd he List.not_mem_nil
  | cons first rest ih =>
    intro e he
    rcases List.mem_cons.mp he with rfl | he
    · exact ⟨Nat.le_of_eq h.1.symm, h.2.le⟩
    · obtain ⟨hlo, hhi⟩ := ih h.2 e he
      have hstart := h.1
      unfold Extent.stop at hlo
      exact ⟨by omega, hhi⟩

/-- A range ends before each later one begins. -/
theorem pairwise (h : Consecutive start stop es) : es.Pairwise fun e e' => e.stop ≤ e'.start := by
  induction es generalizing start with
  | nil => exact List.Pairwise.nil
  | cons first rest ih =>
    exact List.Pairwise.cons (fun e he => (h.2.inside e he).1) (ih h.2)

/-- There is no gap between the ranges. -/
theorem covers (h : Consecutive start stop es) {pos : Nat} (hlo : start ≤ pos) (hhi : pos < stop) :
    ∃ e ∈ es, e.start ≤ pos ∧ pos < e.stop := by
  induction es generalizing start with
  | nil =>
    have heq : start = stop := h
    omega
  | cons first rest ih =>
    have hstart := h.1
    by_cases hpos : pos < first.stop
    · exact ⟨first, List.mem_cons_self, by omega, hpos⟩
    · obtain ⟨e, he, hin⟩ := ih h.2 (by omega)
      exact ⟨e, List.mem_cons_of_mem first he, hin⟩

end Consecutive

/-! ## The last bytes -/

/-- The last `n` bytes of a string, all of them if there are not as many. -/
def lastBytes (n : Nat) (bytes : Bytes) : Bytes :=
  bytes.slice (bytes.size - min n bytes.size) (min n bytes.size)

/-- The history that is kept are the last bytes of both parts together. -/
theorem keptHistory_eq_lastBytes (n : Nat) (older newer : Bytes) :
    StreamState.keptHistory n older newer = lastBytes n (older ++ newer) := by
  have hboth := PartOf.refl (older ++ newer)
  have hnewer := hboth.of_append_right
  have hkept := StreamState.partOf_keptHistory n hboth.of_append_left hnewer
  rw [hkept.eq_slice, StreamState.size_keptHistory, Nat.zero_add, ← ByteArray.size_append]
  rfl

namespace Layout

theorem consecutive_extentsFrom (start : Nat) (sizes : List Nat) :
    Consecutive start (after start sizes) (extentsFrom start sizes) := by
  induction sizes generalizing start with
  | nil => rfl
  | cons size rest ih => exact ⟨rfl, ih (start + size)⟩

/-! ## Fields -/

/-- A field of the state of a stream. -/
inductive Field where
  | magic
  | checksum
  | offset
  | resume
  | flags
  | padding
  | historyLength
  | history
  /-- The entry of a pattern. -/
  | pattern (i : Nat)
  /-- The state of a repeat. -/
  | repetition (i : Nat)
deriving DecidableEq, Repr

variable (layout : Layout)

/-- The range of a field. -/
def extentOf : Field → Extent
  | .magic => ⟨0, 4⟩
  | .checksum => ⟨4, 4⟩
  | .offset => ⟨8, 8⟩
  | .resume => ⟨16, 12⟩
  | .flags => ⟨28, 1⟩
  | .padding => ⟨29, 1⟩
  | .historyLength => ⟨30, 2⟩
  | .history => ⟨historyAt, layout.historySize⟩
  | .pattern i => ⟨patternAt layout.historySize i, 8⟩
  | .repetition i => layout.repeats[i]?.getD ⟨layout.size, 0⟩

/-- The fields of a layout, in the order of their ranges. -/
def fields : List Field :=
  [.magic, .checksum, .offset, .resume, .flags, .padding, .historyLength, .history]
    ++ (List.range layout.patternCount).map .pattern
    ++ (List.range layout.repeats.size).map .repetition

/-- The bytes of a field. -/
def bytesOf (f : Field) (region : Bytes) : Bytes :=
  region.slice (layout.extentOf f).start (layout.extentOf f).size

/-- No field is empty, the fields are inside of the region, do not overlap and leave no gap. -/
structure Partitioned : Prop where
  size_pos : ∀ f ∈ layout.fields, 0 < (layout.extentOf f).size
  inside : ∀ f ∈ layout.fields, (layout.extentOf f).stop ≤ layout.size
  apart : ∀ f ∈ layout.fields, ∀ g ∈ layout.fields, f ≠ g →
    (layout.extentOf f).stop ≤ (layout.extentOf g).start ∨
      (layout.extentOf g).stop ≤ (layout.extentOf f).start
  covered : ∀ pos < layout.size, ∃ f ∈ layout.fields,
    (layout.extentOf f).start ≤ pos ∧ pos < (layout.extentOf f).stop

/-- Two states that differ at most in some of their fields. -/
structure OnlyChanges (changed : List Field) (a b : Bytes) : Prop where
  size_eq : b.size = a.size
  same : ∀ f ∈ layout.fields, f ∉ changed → layout.bytesOf f b = layout.bytesOf f a

/-- A write succeeds, what was written is read back, and only some fields change. -/
def Sets (changed : List Field) (region : Bytes) (written : Checked Bytes)
    (reads : Bytes → Prop) : Prop :=
  ∃ region', written = .ok region' ∧ reads region' ∧ layout.OnlyChanges changed region region'

variable {layout}

theorem pattern_mem_fields {i : Nat} (h : i < layout.patternCount) :
    .pattern i ∈ layout.fields := by
  simp [fields, h]

theorem Sound.repetition_mem_fields {rs : Array Repeat} (h : layout.Sound rs) {r : Repeat}
    (hr : r ∈ rs) : .repetition r.id.toNat ∈ layout.fields := by
  have hlt : r.id.toNat < layout.repeats.size :=
    (Array.getElem?_eq_some_iff.mp (h.extent r hr)).1
  simp [fields, hlt]

theorem consecutive_patterns (historySize n : Nat) :
    Consecutive (patternAt historySize 0) (patternAt historySize n)
      ((List.range n).map fun i => ⟨patternAt historySize i, 8⟩) := by
  induction n with
  | zero => rfl
  | succ n ih =>
    rw [List.range_succ, List.map_append]
    exact ih.append ⟨rfl, by unfold patternAt Extent.stop; rfl⟩

variable {historySize patternCount : Nat} {repeats : List Repeat}

theorem repeats_ofParts : (ofParts historySize patternCount repeats).repeats =
    (extentsFrom (patternAt historySize patternCount) (repeats.map Repeat.stateSize)).toArray :=
  rfl

theorem size_repeats_ofParts :
    (ofParts historySize patternCount repeats).repeats.size = repeats.length := by
  rw [repeats_ofParts, List.size_toArray, extentsFrom_length, List.length_map]

theorem map_extentOf_repetition (layout : Layout) :
    (List.range layout.repeats.size).map (fun i => layout.extentOf (.repetition i)) =
      layout.repeats.toList := by
  apply List.ext_getElem
  · simp
  · intro i hi hi'
    have hlt : i < layout.repeats.size := by simpa using hi'
    simp [extentOf, hlt]

theorem consecutive_fields : Consecutive 0 (ofParts historySize patternCount repeats).size
    ((ofParts historySize patternCount repeats).fields.map
      (ofParts historySize patternCount repeats).extentOf) := by
  unfold fields
  rw [List.map_append, List.map_append, List.map_map, List.map_map]
  refine Consecutive.append (Consecutive.append ?_ (consecutive_patterns historySize patternCount))
    ?_
  · exact ⟨rfl, rfl, rfl, rfl, rfl, rfl, rfl, rfl, by unfold patternAt Extent.stop; rfl⟩
  · have hmap := map_extentOf_repetition (ofParts historySize patternCount repeats)
    rw [repeats_ofParts, List.toList_toArray] at hmap
    exact hmap ▸ consecutive_extentsFrom _ _

theorem partitioned_of_consecutive (hpos : ∀ f ∈ layout.fields, 0 < (layout.extentOf f).size)
    (h : Consecutive 0 layout.size (layout.fields.map layout.extentOf)) : layout.Partitioned := by
  refine ⟨hpos, fun f hf => (h.inside _ (List.mem_map_of_mem hf)).2, ?_, ?_⟩
  · intro f hf g hg hne
    have hpairs := List.pairwise_iff_getElem.mp (List.pairwise_map.mp h.pairwise)
    obtain ⟨i, hi, rfl⟩ := List.mem_iff_getElem.mp hf
    obtain ⟨j, hj, rfl⟩ := List.mem_iff_getElem.mp hg
    rcases Nat.lt_trichotomy i j with hij | rfl | hij
    · exact Or.inl (hpairs i j hi hj hij)
    · exact absurd rfl hne
    · exact Or.inr (hpairs j i hj hi hij)
  · intro pos hpos
    obtain ⟨e, he, hin⟩ := h.covers (Nat.zero_le pos) hpos
    obtain ⟨f, hf, rfl⟩ := List.mem_map.mp he
    exact ⟨f, hf, hin⟩

theorem size_extentOf_repetition {i : Nat} {r : Repeat} (hr : repeats[i]? = some r) :
    ((ofParts historySize patternCount repeats).extentOf (.repetition i)).size = r.stateSize := by
  simp only [extentOf, repeats_ofParts_getElem? hr, Option.getD_some]

theorem size_pos_ofParts (hpos : 0 < historySize) :
    ∀ f ∈ (ofParts historySize patternCount repeats).fields,
      0 < ((ofParts historySize patternCount repeats).extentOf f).size := by
  intro f hf
  cases f with
  | history => exact hpos
  | pattern i => exact Nat.succ_pos 7
  | repetition i =>
    have hi : i < (ofParts historySize patternCount repeats).repeats.size := by
      simpa [fields] using hf
    rw [size_repeats_ofParts] at hi
    rw [size_extentOf_repetition (List.getElem?_eq_getElem hi)]
    exact Nat.lt_of_lt_of_le (by decide) (Repeat.stateSize_pos _)
  | magic | checksum | offset | resume | flags | padding | historyLength =>
    exact Nat.succ_pos _

theorem partitioned_ofParts (hpos : 0 < historySize) :
    (ofParts historySize patternCount repeats).Partitioned :=
  partitioned_of_consecutive (size_pos_ofParts hpos) consecutive_fields

/-! ## Writes -/

section Writes

variable {a b : Bytes} {pos len : Nat} {changed : List Field}

/-- What changes no byte of a field outside of some fields changes only them. -/
theorem Partitioned.onlyChanges (h : layout.Partitioned) (hsize : a.size = layout.size)
    (hab : AgreeOutside pos len a b)
    (hother : ∀ g ∈ layout.fields, g ∉ changed →
      (layout.extentOf g).stop ≤ pos ∨ pos + len ≤ (layout.extentOf g).start) :
    layout.OnlyChanges changed a b := by
  refine ⟨hab.size_eq, fun g hg hne => hab.slice_eq ?_ (hother g hg hne)⟩
  rw [hsize]
  exact h.inside g hg

/-- What changes only bytes of a field changes only that field. -/
theorem Partitioned.onlyChanges_one (h : layout.Partitioned) (hsize : a.size = layout.size)
    {f : Field} (hf : f ∈ layout.fields)
    (hab : AgreeOutside (layout.extentOf f).start (layout.extentOf f).size a b) :
    layout.OnlyChanges [f] a b :=
  h.onlyChanges hsize hab fun g hg hne =>
    h.apart g hg f hf fun heq => hne (List.mem_singleton.mpr heq)

/-- What changes only bytes of the history and of its length changes only these two fields. -/
theorem Partitioned.onlyChanges_history (h : layout.Partitioned) (hsize : a.size = layout.size)
    (hab : AgreeOutside 30 (2 + layout.historySize) a b) :
    layout.OnlyChanges [.historyLength, .history] a b := by
  refine h.onlyChanges hsize hab fun g hg hne => ?_
  simp only [List.mem_cons, List.not_mem_nil, or_false, not_or] at hne
  have hpos := h.size_pos g hg
  have hlength : (layout.extentOf g).stop ≤ 30 ∨ 30 + 2 ≤ (layout.extentOf g).start :=
    h.apart g hg .historyLength (by simp [fields]) hne.1
  have hhistory : (layout.extentOf g).stop ≤ 32 ∨
      32 + layout.historySize ≤ (layout.extentOf g).start :=
    h.apart g hg .history (by simp [fields]) hne.2
  unfold Extent.stop at hlength hhistory ⊢
  omega

end Writes

theorem extentOf_repetition {rs : Array Repeat} (h : layout.Sound rs) {r : Repeat} (hr : r ∈ rs) :
    layout.extentOf (.repetition r.id.toNat) = ⟨(layout.place r).base, r.stateSize⟩ := by
  have hextent := h.extent r hr
  simp only [extentOf, hextent, Option.getD_some]

/-! ## Reads -/

/-- What is read from two states that differ at most in some fields is the same, except for these
fields. The history is read as far as its length says, which is not above its size in a state. -/
structure SameReads (layout : Layout) (repeats : List Repeat) (changed : List Field)
    (a b : Bytes) : Prop where
  offset : .offset ∉ changed → StreamState.offset b = StreamState.offset a
  resume : .resume ∉ changed → StreamState.resume b = StreamState.resume a
  terminated : .flags ∉ changed → StreamState.isTerminated b = StreamState.isTerminated a
  history : .historyLength ∉ changed → .history ∉ changed →
    a.readNumber 30 2 ≤ layout.historySize → StreamState.history b = StreamState.history a
  pattern : ∀ i < layout.patternCount, .pattern i ∉ changed →
    StreamState.pattern layout b i = StreamState.pattern layout a i
  tracker : ∀ r ∈ repeats, .repetition r.id.toNat ∉ changed → ∀ st : RunState,
    (layout.place r).Tracks a st → (layout.place r).Tracks b st

namespace OnlyChanges

variable {changed : List Field} {a b : Bytes} {f : Field}

theorem byteAt_eq (h : layout.OnlyChanges changed a b) (hp : layout.Partitioned)
    (hsize : a.size = layout.size) (hf : f ∈ layout.fields) (hne : f ∉ changed) {pos : Nat}
    (hlo : (layout.extentOf f).start ≤ pos) (hhi : pos < (layout.extentOf f).stop) :
    byteAt b pos = byteAt a pos := by
  have hin := hp.inside f hf
  have hsize' := h.size_eq
  have hsame : byteAt (layout.bytesOf f b) (pos - (layout.extentOf f).start) =
      byteAt (layout.bytesOf f a) (pos - (layout.extentOf f).start) := by
    rw [h.same f hf hne]
  unfold Extent.stop at hhi hin
  unfold bytesOf at hsame
  rwa [byteAt_slice (by omega) (by omega), byteAt_slice (by omega) (by omega),
    Nat.add_sub_cancel' hlo] at hsame

theorem readNumber_eq (h : layout.OnlyChanges changed a b) (hp : layout.Partitioned)
    (hsize : a.size = layout.size) (hf : f ∈ layout.fields) (hne : f ∉ changed) {pos width : Nat}
    (hlo : (layout.extentOf f).start ≤ pos) (hhi : pos + width ≤ (layout.extentOf f).stop) :
    readNumber b pos width = readNumber a pos width :=
  readNumber_congr fun i hi => h.byteAt_eq hp hsize hf hne (by omega) (by omega)

theorem tracks {rs : Array Repeat} (h : layout.OnlyChanges changed a b) (hs : layout.Sound rs)
    (hp : layout.Partitioned) (hsize : a.size = layout.size) {r : Repeat} (hr : r ∈ rs)
    (hne : .repetition r.id.toNat ∉ changed) {st : RunState}
    (hst : (layout.place r).Tracks a st) : (layout.place r).Tracks b st := by
  refine hst.congr h.size_eq fun i hlo hhi => ?_
  refine h.byteAt_eq hp hsize (hs.repetition_mem_fields hr) hne ?_ ?_
  · rwa [extentOf_repetition hs hr]
  · rwa [extentOf_repetition hs hr]

theorem slice_eq (h : layout.OnlyChanges changed a b) (hp : layout.Partitioned)
    (hsize : a.size = layout.size) (hf : f ∈ layout.fields) (hne : f ∉ changed) {pos width : Nat}
    (hlo : (layout.extentOf f).start ≤ pos) (hhi : pos + width ≤ (layout.extentOf f).stop) :
    slice b pos width = slice a pos width := by
  have hin := hp.inside f hf
  have hsize' := h.size_eq
  have ha : pos + width ≤ a.size := by omega
  have hb : pos + width ≤ b.size := by omega
  apply ext_byteAt
  · rw [size_slice_of_le ha, size_slice_of_le hb]
  · intro i hi
    rw [size_slice_of_le hb] at hi
    rw [byteAt_slice hi ha, byteAt_slice hi hb]
    exact h.byteAt_eq hp hsize hf hne (by omega) (by omega)

theorem sameReads (h : layout.OnlyChanges changed a b) (hs : layout.Sound repeats.toArray)
    (hp : layout.Partitioned) (hsize : a.size = layout.size) :
    layout.SameReads repeats changed a b := by
  have hlow := hs.fixed_le hsize
  have hlow' := hs.fixed_le (h.size_eq.trans hsize)
  refine ⟨fun hne => ?_, fun hne => ?_, fun hne => ?_, fun hne hne' hle => ?_, fun i hi hne => ?_,
    fun r hr hne st hst => h.tracks hs hp hsize (List.mem_toArray.mpr hr) hne hst⟩
  · have hnumber : b.readNumber 8 8 = a.readNumber 8 8 :=
      h.readNumber_eq hp hsize (show .offset ∈ _ by simp [fields]) hne (Nat.le_refl 8)
        (Nat.le_refl 16)
    rw [StreamState.offset_eq hlow, StreamState.offset_eq hlow']
    exact congrArg Except.ok hnumber
  · have hmem : .resume ∈ layout.fields := by simp [fields]
    have hends : b.readNumber 16 8 = a.readNumber 16 8 :=
      h.readNumber_eq hp hsize hmem hne (Nat.le_refl 16) (show 24 ≤ 28 by decide)
    have hrank : b.readNumber 24 4 = a.readNumber 24 4 :=
      h.readNumber_eq hp hsize hmem hne (show 16 ≤ 24 by decide) (Nat.le_refl 28)
    rw [StreamState.resume_eq hlow, StreamState.resume_eq hlow']
    unfold StreamState.resumeOf
    rw [hends, hrank]
  · have hnumber : b.readNumber 28 1 = a.readNumber 28 1 :=
      h.readNumber_eq hp hsize (show .flags ∈ _ by simp [fields]) hne (Nat.le_refl 28)
        (Nat.le_refl 29)
    rw [StreamState.isTerminated_eq hlow, StreamState.isTerminated_eq hlow', hnumber]
  · have hheader := hs.header_le hsize
    have hsize' := h.size_eq
    have hlength : b.readNumber 30 2 = a.readNumber 30 2 :=
      h.readNumber_eq hp hsize (show .historyLength ∈ _ by simp [fields]) hne (Nat.le_refl 30)
        (Nat.le_refl 32)
    have hbytes : b.slice 32 (a.readNumber 30 2) = a.slice 32 (a.readNumber 30 2) :=
      h.slice_eq hp hsize (show .history ∈ _ by simp [fields]) hne' (Nat.le_refl 32)
        (Nat.add_le_add_left hle 32)
    rw [StreamState.history_eq (by omega), StreamState.history_eq (by omega)]
    unfold StreamState.historyOf
    rw [hlength, hbytes]
  · have hheader := hs.header_le hsize
    have hin : patternAt layout.historySize i + 8 ≤ a.size := by
      unfold patternAt historyAt
      omega
    have hin' : patternAt layout.historySize i + 8 ≤ b.size := h.size_eq.symm ▸ hin
    have hnumber : b.readNumber (patternAt layout.historySize i) 8 =
        a.readNumber (patternAt layout.historySize i) 8 :=
      h.readNumber_eq hp hsize (pattern_mem_fields hi) hne (Nat.le_refl _) (Nat.le_refl _)
    rw [StreamState.pattern_eq hin, StreamState.pattern_eq hin', StreamState.entryOf_eq,
      StreamState.entryOf_eq, readWord_eq, readWord_eq, hnumber]

end OnlyChanges

/-- What is written to a region is read back, and changes no other field. -/
structure Independent (layout : Layout) (repeats : List Repeat) (region : Bytes) : Prop where
  offset : ∀ n < Word.bound,
    layout.Sets [.offset] region (StreamState.setOffset region n) fun region' =>
      StreamState.offset region' = .ok n
  resume : ∀ key : Key, key.endsAt < Word.bound → key.rank < 0x100000000 →
    layout.Sets [.resume] region (StreamState.setResume region key) fun region' =>
      StreamState.resume region' = .ok key
  terminated : layout.Sets [.flags] region (StreamState.setTerminated region) fun region' =>
    StreamState.isTerminated region' = .ok true
  pattern : ∀ i < layout.patternCount, ∀ entry : PatternEntry,
    (∀ last, entry.lastEnd = some last → last < 0x7FFFFFFFFFFFFFFF) →
    layout.Sets [.pattern i] region (StreamState.setPattern layout region i entry) fun region' =>
      StreamState.pattern layout region' i = .ok entry
  history : ∀ older newer : Bytes,
    layout.Sets [.historyLength, .history] region
      (StreamState.setHistory layout region older newer) fun region' =>
        StreamState.history region' = .ok (lastBytes layout.historySize (older ++ newer))
  tracker : ∀ r ∈ repeats, layout.tracker r region = .ok (layout.place r) ∧
    layout.Sets [.repetition r.id.toNat] region (.ok ((layout.place r).reset region))
      ((layout.place r).Tracks · .start) ∧
    ∀ (st : RunState) (op : Tracker.Operation),
      (layout.place r).Tracks region st → st.Allows op →
      ∃ region', (layout.place r).perform region op = .ok (region', st.answer r op) ∧
        (layout.place r).Tracks region' (st.next r op) ∧
        layout.OnlyChanges [.repetition r.id.toNat] region region'

section Independent

variable {rs : Array Repeat} {region : Bytes}

theorem sets_offset (h : layout.Sound rs) (hp : layout.Partitioned)
    (hsize : region.size = layout.size) {n : Nat} (hn : n < Word.bound) :
    layout.Sets [.offset] region (StreamState.setOffset region n) fun region' =>
      StreamState.offset region' = .ok n := by
  have hin := h.fixed_le hsize
  obtain ⟨region', hset, hab, hread⟩ := StreamState.setOffset_spec hin hn
  have hin' : 32 ≤ region'.size := hab.size_eq ▸ hin
  refine ⟨region', hset, ?_, hp.onlyChanges_one hsize (by simp [fields]) hab⟩
  exact (StreamState.offset_eq hin').trans (congrArg Except.ok hread)

theorem sets_resume (h : layout.Sound rs) (hp : layout.Partitioned)
    (hsize : region.size = layout.size) {key : Key} (he : key.endsAt < Word.bound)
    (hr : key.rank < 0x100000000) :
    layout.Sets [.resume] region (StreamState.setResume region key) fun region' =>
      StreamState.resume region' = .ok key := by
  have hin := h.fixed_le hsize
  obtain ⟨region', hset, hab, hread⟩ := StreamState.setResume_spec hin he hr
  have hin' : 32 ≤ region'.size := hab.size_eq ▸ hin
  refine ⟨region', hset, ?_, hp.onlyChanges_one hsize (by simp [fields]) hab⟩
  exact (StreamState.resume_eq hin').trans (congrArg Except.ok hread)

theorem sets_terminated (h : layout.Sound rs) (hp : layout.Partitioned)
    (hsize : region.size = layout.size) :
    layout.Sets [.flags] region (StreamState.setTerminated region) fun region' =>
      StreamState.isTerminated region' = .ok true := by
  have hin := h.fixed_le hsize
  obtain ⟨region', hset, hab, hread⟩ := StreamState.setTerminated_spec hin
  have hin' : 32 ≤ region'.size := hab.size_eq ▸ hin
  refine ⟨region', hset, ?_, hp.onlyChanges_one hsize (by simp [fields]) hab⟩
  have hodd : (region'.readNumber 28 1 % 2 == 1) = true := by
    rw [hread, Nat.mul_add_mod_self_right]
    rfl
  exact (StreamState.isTerminated_eq hin').trans (congrArg Except.ok hodd)

theorem sets_pattern (h : layout.Sound rs) (hp : layout.Partitioned)
    (hsize : region.size = layout.size) {i : Nat} (hi : i < layout.patternCount)
    {entry : PatternEntry}
    (hlast : ∀ last, entry.lastEnd = some last → last < 0x7FFFFFFFFFFFFFFF) :
    layout.Sets [.pattern i] region (StreamState.setPattern layout region i entry) fun region' =>
      StreamState.pattern layout region' i = .ok entry := by
  have hheader := h.header_le hsize
  have hin : patternAt layout.historySize i + 8 ≤ region.size := by
    unfold patternAt historyAt
    omega
  obtain ⟨region', hset, hab, hread⟩ := StreamState.setPattern_spec hin fun last hl => by
    have := hlast last hl
    unfold PatternEntry.exhaustedBit
    omega
  have hin' : patternAt layout.historySize i + 8 ≤ region'.size := hab.size_eq ▸ hin
  refine ⟨region', hset, ?_, hp.onlyChanges_one hsize (pattern_mem_fields hi) hab⟩
  exact (StreamState.pattern_eq hin').trans (congrArg Except.ok hread)

theorem sets_history (h : layout.Sound rs) (hp : layout.Partitioned)
    (hsize : region.size = layout.size) (older newer : Bytes) :
    layout.Sets [.historyLength, .history] region
      (StreamState.setHistory layout region older newer) fun region' =>
        StreamState.history region' = .ok (lastBytes layout.historySize (older ++ newer)) := by
  have hheader := h.header_le hsize
  have hin : 32 + layout.historySize ≤ region.size := by omega
  obtain ⟨region', hset, hab, hlength, hread⟩ :=
    StreamState.setHistory_spec older newer h.historySize_le hin
  have hsize' := hab.size_eq
  have hin' : 32 + region'.readNumber 30 2 ≤ region'.size := by omega
  refine ⟨region', hset, ?_, hp.onlyChanges_history hsize hab⟩
  exact (StreamState.history_eq hin').trans
    (congrArg Except.ok (hread.trans (keptHistory_eq_lastBytes _ _ _)))

/-- What changes only bytes of the state of a repeat changes no other field. -/
theorem Sound.onlyChanges_repetition (h : layout.Sound rs) (hp : layout.Partitioned)
    (hsize : region.size = layout.size) {r : Repeat} (hr : r ∈ rs) {region' : Bytes}
    (hab : AgreeOutside (layout.place r).base r.stateSize region region') :
    layout.OnlyChanges [.repetition r.id.toNat] region region' := by
  refine hp.onlyChanges_one hsize (h.repetition_mem_fields hr) ?_
  rwa [extentOf_repetition h hr]

theorem onlyChanges_perform (h : layout.Sound rs) (hp : layout.Partitioned)
    (hsize : region.size = layout.size) {r : Repeat} (hr : r ∈ rs) (htrack : r.Trackable)
    {st : RunState} {op : Tracker.Operation} (hst : (layout.place r).Tracks region st)
    (hop : st.Allows op) :
    ∃ region', (layout.place r).perform region op = .ok (region', st.answer r op) ∧
      (layout.place r).Tracks region' (st.next r op) ∧
      layout.OnlyChanges [.repetition r.id.toNat] region region' := by
  obtain ⟨region', hperform, hab, hst'⟩ := Tracker.perform_spec hst htrack hop
  exact ⟨region', hperform, hst', h.onlyChanges_repetition hp hsize hr hab⟩

/-- A repeat can be put in its first state whatever its bytes were. -/
theorem sets_reset (h : layout.Sound rs) (hp : layout.Partitioned)
    (hsize : region.size = layout.size) {r : Repeat} (hr : r ∈ rs) (htrack : r.Trackable) :
    layout.Sets [.repetition r.id.toNat] region (.ok ((layout.place r).reset region))
      ((layout.place r).Tracks · .start) := by
  obtain ⟨hab, hst⟩ := Tracker.reset_spec (t := layout.place r) (hsize ▸ h.inside r hr) htrack
  exact ⟨_, rfl, hst, h.onlyChanges_repetition hp hsize hr hab⟩

end Independent

/-- The fields of a state do not overlap and leave no gap. What is written to a field is read
back, and every other field keeps its bytes and is read as before. -/
theorem fields_independent (hpos : 0 < historySize) (hle : historySize ≤ 65535)
    (hid : ∀ (i : Nat) (r : Repeat), repeats[i]? = some r → r.id.toNat = i)
    (hrepeats : ∀ r ∈ repeats, r.most.value? ≠ some 0 ∧
      ∃ settings : Settings, settings.check = .ok () ∧
        r.tracking = .select r.most settings) :
    (ofParts historySize patternCount repeats).Partitioned ∧
      ∀ region : Bytes, region.size = (ofParts historySize patternCount repeats).size →
        (ofParts historySize patternCount repeats).Independent repeats region ∧
        ∀ (changed : List Field) (region' : Bytes),
          (ofParts historySize patternCount repeats).OnlyChanges changed region region' →
          (ofParts historySize patternCount repeats).SameReads repeats changed region region' := by
  have hsound : (ofParts historySize patternCount repeats).Sound repeats.toArray :=
    ofParts_sound hpos hle hid
  have hp : (ofParts historySize patternCount repeats).Partitioned := partitioned_ofParts hpos
  refine ⟨hp, fun region hsize => ⟨?_, fun _ _ h => h.sameReads hsound hp hsize⟩⟩
  refine ⟨?_, ?_, ?_, ?_, ?_, ?_⟩
  · exact fun n hn => sets_offset hsound hp hsize hn
  · exact fun key he hr => sets_resume hsound hp hsize he hr
  · exact sets_terminated hsound hp hsize
  · exact fun i hi entry hlast => sets_pattern hsound hp hsize hi hlast
  · exact fun older newer => sets_history hsound hp hsize older newer
  · intro r hr
    obtain ⟨hzero, settings, hcheck, htracking⟩ := hrepeats r hr
    have htrack := Repeat.trackable_of_select hcheck hzero htracking
    have hmem : r ∈ repeats.toArray := List.mem_toArray.mpr hr
    refine ⟨tracker_eq_place hsound hmem hsize, sets_reset hsound hp hsize hmem htrack, ?_⟩
    exact fun st op hst hop => onlyChanges_perform hsound hp hsize hmem htrack hst hop

/-- `a{1,4}`, `b{2,99}` and `c+`, each with a tracking of its own. -/
def oneOfEach : List Repeat :=
  [⟨⟨0⟩, ⟨0⟩, .single 97, 1, .finite ⟨4, by decide⟩, .bitmap, #[]⟩,
    ⟨⟨1⟩, ⟨1⟩, .single 98, 2, .finite ⟨99, by decide⟩, .ring, #[]⟩,
    ⟨⟨2⟩, ⟨2⟩, .single 99, 1, .infinite, .counter, #[]⟩]

theorem oneOfEach_independent :
    0 < 5 ∧ 5 ≤ 65535 ∧
    (∀ (i : Nat) (r : Repeat), oneOfEach[i]? = some r → r.id.toNat = i) ∧
    (∀ r ∈ oneOfEach, r.most.value? ≠ some 0 ∧
      ∃ settings : Settings, settings.check = .ok () ∧
        r.tracking = .select r.most settings) ∧
    (ofParts 5 4 oneOfEach).size = 989 ∧ (ofParts 5 4 oneOfEach).Partitioned ∧
    (ofParts 5 4 oneOfEach).Independent oneOfEach (zeros 989) := by
  have hid : ∀ (i : Nat) (r : Repeat), oneOfEach[i]? = some r → r.id.toNat = i := by
    intro i r hr
    match i with
    | 0 | 1 | 2 =>
      cases hr
      rfl
    | i + 3 => cases hr
  have hrepeats : ∀ r ∈ oneOfEach, r.most.value? ≠ some 0 ∧
      ∃ settings : Settings, settings.check = .ok () ∧
        r.tracking = .select r.most settings := by
    have hdefault : ∀ r ∈ oneOfEach, r.most.value? ≠ some 0 ∧
        r.tracking = .select r.most {} := by decide
    exact fun r hr => ⟨(hdefault r hr).1, {}, rfl, (hdefault r hr).2⟩
  obtain ⟨hp, hall⟩ :=
    @fields_independent 5 4 oneOfEach (by decide) (by decide) hid hrepeats
  exact ⟨by decide, by decide, hid, hrepeats, rfl, hp, (hall _ (zeros_size 989)).1⟩

end Layout

end StreamMatch
