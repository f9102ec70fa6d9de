-- Two states of a stream, one for each of two programs that differ in their
-- settings. The fields before the states of the repeats have the same bytes, and the
-- two states of a repeat stand for the same run state, each in its own tracking.
-- What is done to both of them keeps them alike.
import StreamMatch.Proofs.Matches.Raw
import StreamMatch.Proofs.Program.Settings
import StreamMatch.Proofs.Repeat.Steps
import StreamMatch.Proofs.State.Fields

namespace StreamMatch

open Bytes Checked

namespace Program

/-- A program can also be used with other settings. -/
structure Admits (p : Program) (settings : Settings) : Prop where
  sound : p.Sound
  soundWith : (p.withSettings settings).Sound
  rankOf_lt : ∀ r ∈ p.repeats, ∀ b, r.rankOf b < 0x100000000

/-- The place of a repeat in the states of a program with other settings. -/
def placeWith (p : Program) (settings : Settings) (r : Repeat) : Tracker :=
  (p.withSettings settings).layout.place (r.tracked settings)

/-- The ranks of a repeat do not depend on its tracking. -/
theorem rankOf_placeWith (p : Program) (settings : Settings) (r : Repeat) (b : UInt8) :
    (p.placeWith settings r).rep.rankOf b = (p.layout.place r).rep.rankOf b := rfl

/-- Where the states of the repeats start, for each of the two programs. -/
def repeatsAt (p : Program) : Nat := Layout.patternAt p.layout.historySize p.layout.patternCount

/-- A state of a program and a state of the program with other settings that say the
same. Only the checksums can be different in the fields before the repeats. -/
structure Twins (p : Program) (settings : Settings) (a b : Bytes) : Prop where
  size_left : a.size = p.layout.size
  size_right : b.size = (p.withSettings settings).layout.size
  same : ∀ i, 8 ≤ i → i < p.repeatsAt → byteAt b i = byteAt a i
  tracks : ∀ r ∈ p.repeats, ∃ st, (p.layout.place r).Tracks a st ∧
    (p.placeWith settings r).Tracks b st

theorem header_le_repeatsAt (p : Program) : 32 + p.layout.historySize ≤ p.repeatsAt := by
  unfold repeatsAt Layout.patternAt Layout.historyAt
  omega

variable {p : Program} {settings : Settings} {a b a' b' : Bytes} {pos len : Nat} {r : Repeat}
  {st : RunState}

theorem mem_withSettings (settings : Settings) (hr : r ∈ p.repeats) :
    r.tracked settings ∈ (p.withSettings settings).repeats := Array.mem_map_of_mem hr

namespace Admits

variable (h : p.Admits settings)
include h

theorem trackable (hr : r ∈ p.repeats) : (p.layout.place r).rep.Trackable :=
  h.sound.trackable r hr

theorem trackableWith (hr : r ∈ p.repeats) : (p.placeWith settings r).rep.Trackable :=
  h.soundWith.trackable _ (mem_withSettings settings hr)

theorem repeatsAt_le_place (hr : r ∈ p.repeats) : p.repeatsAt ≤ (p.layout.place r).base :=
  h.sound.layout.patterns_before r hr

theorem repeatsAt_le_placeWith (hr : r ∈ p.repeats) :
    p.repeatsAt ≤ (p.placeWith settings r).base :=
  h.soundWith.layout.patterns_before _ (mem_withSettings settings hr)

theorem tracked_ne {r' : Repeat} (hr : r ∈ p.repeats) (hr' : r' ∈ p.repeats) (hne : r' ≠ r) :
    r'.tracked settings ≠ r.tracked settings := by
  intro hsame
  have hid : r'.id = r.id := by
    rw [← r'.tracked_id settings, hsame, Repeat.tracked_id]
  have hget := h.sound.getElem?_repeats hr
  rw [← hid, h.sound.getElem?_repeats hr', Option.some.injEq] at hget
  exact hne hget

end Admits

namespace Twins

/-- The same bytes are written before the states of the repeats. -/
theorem change (hp : p.Admits settings) (h : p.Twins settings a b)
    (ha : AgreeOutside pos len a a') (hb : AgreeOutside pos len b b')
    (hend : pos + len ≤ p.repeatsAt)
    (hsame : ∀ i, pos ≤ i → i < pos + len → byteAt b' i = byteAt a' i) :
    p.Twins settings a' b' := by
  refine ⟨ha.size_eq.trans h.size_left, hb.size_eq.trans h.size_right, ?_, ?_⟩
  · intro i hi hlt
    by_cases hin : pos ≤ i ∧ i < pos + len
    · exact hsame i hin.1 hin.2
    · rw [ha.same i (by omega), hb.same i (by omega), h.same i hi hlt]
  · intro r hr
    obtain ⟨st, ht, ht'⟩ := h.tracks r hr
    have hbase := hp.repeatsAt_le_place hr
    have hbase' := hp.repeatsAt_le_placeWith hr
    exact ⟨st, ht.frame ha (Or.inr (by omega)), ht'.frame hb (Or.inr (by omega))⟩

/-- The states of one repeat change, to the same run state. -/
theorem setRun (hp : p.Admits settings) (h : p.Twins settings a b) (hr : r ∈ p.repeats)
    (ha : AgreeOutside (p.layout.place r).base (p.layout.place r).rep.stateSize a a')
    (hb : AgreeOutside (p.placeWith settings r).base (p.placeWith settings r).rep.stateSize b b')
    (ht : (p.layout.place r).Tracks a' st) (ht' : (p.placeWith settings r).Tracks b' st) :
    p.Twins settings a' b' := by
  have hbase := hp.repeatsAt_le_place hr
  have hbase' := hp.repeatsAt_le_placeWith hr
  refine ⟨ha.size_eq.trans h.size_left, hb.size_eq.trans h.size_right, ?_, ?_⟩
  · intro i hi hlt
    rw [ha.same i (by omega), hb.same i (by omega), h.same i hi hlt]
  · intro r' hr'
    by_cases heq : r' = r
    · subst heq
      exact ⟨st, ht, ht'⟩
    · -- The states of other repeats are apart from this one, in both layouts.
      obtain ⟨st', hs, hs'⟩ := h.tracks r' hr'
      refine ⟨st', hs.frame ha (hp.sound.layout.apart r' hr' r hr heq), hs'.frame hb ?_⟩
      exact hp.soundWith.layout.apart _ (mem_withSettings settings hr') _
        (mem_withSettings settings hr) (hp.tracked_ne hr hr' heq)

/-! ## Fields -/

theorem readNumber_eq (h : p.Twins settings a b) {width : Nat} (hpos : 8 ≤ pos)
    (hend : pos + width ≤ p.repeatsAt) : b.readNumber pos width = a.readNumber pos width :=
  readNumber_congr fun i hi => h.same (pos + i) (by omega) (by omega)

theorem resumeOf_eq (h : p.Twins settings a b) :
    StreamState.resumeOf b = StreamState.resumeOf a := by
  have hend := p.header_le_repeatsAt
  unfold StreamState.resumeOf
  rw [h.readNumber_eq (by omega) (by omega), h.readNumber_eq (by omega) (by omega)]

section Steps

variable (hp : p.Admits settings) (h : p.Twins settings a b)
include hp h

theorem repeatsAt_le_left : p.repeatsAt ≤ a.size := by
  rw [h.size_left]
  exact hp.sound.layout.patterns_le

theorem repeatsAt_le_right : p.repeatsAt ≤ b.size := by
  rw [h.size_right]
  exact hp.soundWith.layout.patterns_le

/-- The history is in the fields before the repeats. -/
theorem historyOf_eq (hlength : a.readNumber 30 2 ≤ p.layout.historySize) :
    StreamState.historyOf b = StreamState.historyOf a := by
  have hend := p.header_le_repeatsAt
  have hle := h.repeatsAt_le_left hp
  have hle' := h.repeatsAt_le_right hp
  unfold StreamState.historyOf
  rw [h.readNumber_eq (by omega) (by omega)]
  apply ext_byteAt
  · rw [size_slice_of_le (by omega), size_slice_of_le (by omega)]
  · intro i hi
    rw [size_slice_of_le (by omega)] at hi
    rw [byteAt_slice hi (by omega), byteAt_slice hi (by omega)]
    exact h.same (32 + i) (by omega) (by omega)

theorem isTerminated_eq : StreamState.isTerminated b = StreamState.isTerminated a := by
  have hend := p.header_le_repeatsAt
  have hle := h.repeatsAt_le_left hp
  have hle' := h.repeatsAt_le_right hp
  rw [StreamState.isTerminated_eq (by omega), StreamState.isTerminated_eq (by omega),
    h.readNumber_eq (by omega) (by omega)]

theorem pattern_eq {i : Nat} (hi : i < p.patterns.size) :
    StreamState.pattern (p.withSettings settings).layout b i =
      StreamState.pattern p.layout a i := by
  have hle := h.repeatsAt_le_left hp
  have hle' := h.repeatsAt_le_right hp
  have hcount := hp.sound.patternCount
  have hend : Layout.patternAt p.layout.historySize i + 8 ≤ p.repeatsAt := by
    unfold repeatsAt Layout.patternAt
    omega
  have hsame : (p.withSettings settings).layout.historySize = p.layout.historySize := rfl
  have hread : StreamState.pattern p.layout a i = .ok (StreamState.entryOf p.layout a i) :=
    StreamState.pattern_eq (by omega)
  rw [hread, StreamState.pattern_eq (by rw [hsame]; omega), StreamState.entryOf_eq,
    StreamState.entryOf_eq, readWord_eq, readWord_eq, hsame,
    h.readNumber_eq (by unfold Layout.patternAt Layout.historyAt; omega) hend]

/-! ## Writing a field -/

theorem writeWithin {width : Nat} (hend : pos + width ≤ p.repeatsAt) (n : Nat) :
    Agree (p.Twins settings) (a.writeWithin pos width n) (b.writeWithin pos width n) := by
  have hle := h.repeatsAt_le_left hp
  have hle' := h.repeatsAt_le_right hp
  rw [writeWithin_eq_ok (by omega), writeWithin_eq_ok (by omega)]
  refine Agree.of_ok (h.change hp (agreeOutside_writeNumber _ _ _ _)
    (agreeOutside_writeNumber _ _ _ _) hend ?_)
  intro i hi hlt
  rw [writeNumber_eq_replace, writeNumber_eq_replace, byteAt_replace, byteAt_replace,
    digits_length, if_pos (by omega), if_pos (by omega)]

theorem overwriteWithin {source : Bytes}
    (hend : pos + source.size ≤ p.repeatsAt) :
    Agree (p.Twins settings) (a.overwriteWithin pos source) (b.overwriteWithin pos source) := by
  have hle := h.repeatsAt_le_left hp
  have hle' := h.repeatsAt_le_right hp
  rw [overwriteWithin_eq_ok (by omega), overwriteWithin_eq_ok (by omega)]
  refine Agree.of_ok (h.change hp (agreeOutside_overwrite _ _ _ (by omega))
    (agreeOutside_overwrite _ _ _ (by omega)) hend ?_)
  intro i hi hlt
  rw [overwrite_eq_replace (by omega), overwrite_eq_replace (by omega), byteAt_replace,
    byteAt_replace, length_toList, if_pos (by omega), if_pos (by omega)]

theorem setOffset (offset : Nat) :
    Agree (p.Twins settings) (StreamState.setOffset a offset) (StreamState.setOffset b offset) := by
  have hend := p.header_le_repeatsAt
  exact h.writeWithin hp (by omega) offset

theorem setResume (key : Key) :
    Agree (p.Twins settings) (StreamState.setResume a key) (StreamState.setResume b key) := by
  have hend := p.header_le_repeatsAt
  refine (h.writeWithin hp (by omega) key.endsAt).bind fun a' b' h' => ?_
  exact h'.writeWithin hp (by omega) key.rank

theorem setTerminated :
    Agree (p.Twins settings) (StreamState.setTerminated a) (StreamState.setTerminated b) := by
  have hend := p.header_le_repeatsAt
  have hle := h.repeatsAt_le_left hp
  have hle' := h.repeatsAt_le_right hp
  unfold StreamState.setTerminated StreamState.flags
  rw [readWithin_eq_ok (by omega), readWithin_eq_ok (by omega),
    h.readNumber_eq (by omega) (by omega)]
  exact h.writeWithin hp (by omega) _

theorem setHistory (older newer : Bytes) :
    Agree (p.Twins settings) (StreamState.setHistory p.layout a older newer)
      (StreamState.setHistory (p.withSettings settings).layout b older newer) := by
  have hend := p.header_le_repeatsAt
  have hkept := StreamState.size_keptHistory p.layout.historySize older newer
  refine (h.overwriteWithin hp ?_).bind fun a' b' h' => ?_
  · unfold Layout.historyAt
    omega
  · exact h'.writeWithin hp (by omega) _

theorem setPattern {i : Nat} (hi : i < p.patterns.size) (entry : PatternEntry) :
    Agree (p.Twins settings) (StreamState.setPattern p.layout a i entry)
      (StreamState.setPattern (p.withSettings settings).layout b i entry) := by
  have hcount := hp.sound.patternCount
  refine Agree.step fun n _ => ?_
  refine h.writeWithin hp ?_ n
  unfold repeatsAt Layout.patternAt
  omega

/-! ## The state of a repeat -/

variable (hr : r ∈ p.repeats)
include hr

theorem isOpen_eq : (p.placeWith settings r).isOpen b = (p.layout.place r).isOpen a := by
  obtain ⟨st, ht, ht'⟩ := h.tracks r hr
  rw [ht.isOpen_eq (hp.trackable hr), ht'.isOpen_eq (hp.trackableWith hr)]

omit hp in
theorem runEnd?_eq : (p.placeWith settings r).runEnd? b = (p.layout.place r).runEnd? a := by
  obtain ⟨st, ht, ht'⟩ := h.tracks r hr
  rw [ht.lastEnd_eq, ht'.lastEnd_eq]

omit hp in
theorem pending?_eq : (p.placeWith settings r).pending? b = (p.layout.place r).pending? a := by
  obtain ⟨st, ht, ht'⟩ := h.tracks r hr
  rw [ht.pending_eq, ht'.pending_eq]

/-- The same run is extended in both states. -/
theorem extend {n last : Nat} (hle : n ≤ last) :
    Agree (p.Twins settings) ((p.layout.place r).extend a n last)
      ((p.placeWith settings r).extend b n last) := by
  obtain ⟨st, ht, ht'⟩ := h.tracks r hr
  rcases Nat.eq_zero_or_pos n with rfl | hn
  · -- Without bytes nothing is written or checked.
    exact Agree.of_ok h
  · intro a' b' ha hb
    obtain ⟨hframe, hta⟩ := Tracker.extend_eq_ok ht (hp.trackable hr) hn hle ha
    obtain ⟨hframe', htb⟩ := Tracker.extend_eq_ok ht' (hp.trackableWith hr) hn hle hb
    exact h.setRun hp hr hframe hframe' hta htb

/-- The same run is closed in both states. -/
theorem close (c : UInt8) :
    Agree (WithSame (p.Twins settings)) ((p.layout.place r).close a (r.rankOf c))
      ((p.placeWith settings r).close b (r.rankOf c)) := by
  obtain ⟨st, ht, ht'⟩ := h.tracks r hr
  have hrank := hp.rankOf_lt r hr c
  rintro ⟨a', m⟩ ⟨b', m'⟩ ha hb
  obtain ⟨hm, hframe, hta⟩ := Tracker.close_eq_ok ht (hp.trackable hr) hrank ha
  obtain ⟨hm', hframe', htb⟩ := Tracker.close_eq_ok ht' (hp.trackableWith hr) hrank hb
  exact ⟨h.setRun hp hr hframe hframe' hta htb, hm.trans hm'.symm⟩

/-- The same match is taken out of both states. -/
theorem take : Agree (WithSame (p.Twins settings)) ((p.layout.place r).take a)
    ((p.placeWith settings r).take b) := by
  obtain ⟨st, ht, ht'⟩ := h.tracks r hr
  rintro ⟨a', m⟩ ⟨b', m'⟩ ha hb
  obtain ⟨hm, hframe, hta⟩ := Tracker.take_eq_ok ht ha
  obtain ⟨hm', hframe', htb⟩ := Tracker.take_eq_ok ht' hb
  exact ⟨h.setRun hp hr hframe hframe' hta htb, hm.trans hm'.symm⟩

end Steps

end Twins

end Program

end StreamMatch
