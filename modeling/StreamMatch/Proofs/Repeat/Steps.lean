-- What an operation on the state of a repeat did, if it succeeded. The checks that
-- it makes are those that its effect on the run state needs.
import StreamMatch.Proofs.Repeat.RunState

namespace StreamMatch

open Bytes

namespace Tracker

variable {t : Tracker} {s s' : Bytes} {st : RunState} {n last rank : Nat} {m : Option Run}

/-- A run that can go on has an end. -/
theorem Tracks.exists_lastEnd (h : t.Tracks s st) (ho : 0 < st.length) :
    ∃ last, st.lastEnd = some last := by
  have hlength := h.length_le
  refine Option.ne_none_iff_exists'.mp fun hnone => ?_
  rw [hnone, Option.getD_none] at hlength
  omega

/-- What is checked before a run is extended. -/
theorem extend_checks (h : t.Tracks s st) (hr : t.rep.Trackable) (hn : 0 < n)
    (hok : t.extend s n last = .ok s') :
    last < Word.largest ∧ (0 < st.length → st.lastEnd.getD 0 + n = last) := by
  unfold extend at hok
  rw [if_neg (by omega), h.isOpen_eq hr, h.lastEnd_eq] at hok
  by_cases ho : 0 < st.length
  · obtain ⟨e, he⟩ := h.exists_lastEnd ho
    simp only [ho, decide_true, if_true, he, Checked.bind_eq_ok_iff] at hok
    obtain ⟨next, hnext, _, hrequire, _, -, _, hlast, -⟩ := hok
    refine ⟨Word.lt_largest_of_add_one hlast, fun _ => ?_⟩
    rw [he, Option.getD_some, ← (Word.add_eq_ok_iff.mp hnext).2]
    exact eq_of_beq (Checked.of_require hrequire)
  · simp only [ho, decide_false, Bool.false_eq_true, if_false, Checked.bind_eq_ok_iff] at hok
    obtain ⟨_, -, _, hlast, -⟩ := hok
    exact ⟨Word.lt_largest_of_add_one hlast, fun hpos => absurd hpos ho⟩

theorem extend_eq_ok (h : t.Tracks s st) (hr : t.rep.Trackable) (hn : 0 < n) (hle : n ≤ last)
    (hok : t.extend s n last = .ok s') :
    AgreeOutside t.base t.rep.stateSize s s' ∧ t.Tracks s' (st.extend n last) := by
  obtain ⟨hlt, hopen⟩ := extend_checks h hr hn hok
  obtain ⟨s₁, h₁, ha, ht⟩ := extend_spec h hr hn hle hlt hopen
  rw [hok] at h₁
  cases h₁
  exact ⟨ha, ht⟩

/-- What is checked before a match becomes the pending one. -/
theorem close_checks (h : t.Tracks s st) (hr : t.rep.Trackable)
    (hok : t.close s rank = .ok (s', m)) (hsome : (st.current t.rep rank).isSome = true) :
    st.pending = none := by
  obtain ⟨ho, ha⟩ : 0 < st.length ∧ t.rep.accepts st.length = true := by
    rw [RunState.current_eq] at hsome
    refine Decidable.byContradiction fun hnot => ?_
    rw [if_neg hnot] at hsome
    cases hsome
  obtain ⟨e, he⟩ := h.exists_lastEnd ho
  unfold close at hok
  simp only [h.isOpen_eq hr, ho, decide_true, Bool.not_true, Bool.false_eq_true, if_false,
    h.lastEnd_eq, he, h.isSatisfied_eq hr, ha, Checked.ok_bind, if_true, h.pending_eq,
    Checked.bind_eq_ok_iff] at hok
  obtain ⟨_, hrequire, -⟩ := hok
  exact Option.isNone_iff_eq_none.mp (Checked.of_require hrequire)

theorem close_eq_ok (h : t.Tracks s st) (hr : t.rep.Trackable) (hrank : rank < 0x100000000)
    (hok : t.close s rank = .ok (s', m)) : m = st.current t.rep rank ∧
      AgreeOutside t.base t.rep.stateSize s s' ∧ t.Tracks s' (st.close t.rep rank) := by
  obtain ⟨s₁, h₁, ha, ht⟩ := close_spec h hr hrank (close_checks h hr hok)
  rw [hok] at h₁
  cases h₁
  exact ⟨rfl, ha, ht⟩

theorem take_eq_ok (h : t.Tracks s st) (hok : t.take s = .ok (s', m)) : m = st.pending ∧
    AgreeOutside t.base t.rep.stateSize s s' ∧ t.Tracks s' st.take := by
  obtain ⟨s₁, h₁, ha, ht⟩ := take_spec h
  rw [hok] at h₁
  cases h₁
  exact ⟨rfl, ha, ht⟩

end Tracker

end StreamMatch
