-- What the state of a repeat says of a stream, in terms of the runs found so
-- far: those whose first byte was processed as a candidate. The last of them can
-- still be open, and at most one of the others has a match that waits.
import StreamMatch.Proofs.Key
import StreamMatch.Proofs.Matches.Raw
import StreamMatch.Proofs.Repeat.Coherent

namespace StreamMatch.Repeat

open Bytes

/-- The match of a run, as it is remembered until it is reported. -/
def runOf (r : Repeat) (stream : Bytes) (first stop : Nat) : Run :=
  ⟨first, stop, (r.keyAt stream stop).rank⟩

/-- A run is found if the candidate of its first byte goes before the key
`upto`. -/
structure Finds (r : Repeat) (stream : Bytes) (upto : Key) (first stop : Nat) : Prop where
  isRun : r.allowed.IsRun stream first stop
  trigger : r.keyAt stream (first + 1) < upto

/-- After `n` bytes, a run is known to have ended. -/
def Ended (n : Nat) (final : Bool) (stop : Nat) : Prop := stop < n ∨ final = true

/-- The run state of a repeat after `n` bytes, when the candidates before the key
`upto` were processed and some matches were reported. -/
structure Found (r : Repeat) (stream : Bytes) (n : Nat) (final : Bool) (upto : Key)
    (reported : List RawMatch) (st : RunState) : Prop where
  upto_le : upto ≤ ⟨n + 1, 0⟩
  lastEnd : ∀ last, st.lastEnd = some last →
    ∃ first stop, r.Finds stream upto first stop ∧ last = min stop n
  covers : ∀ first stop, r.Finds stream upto first stop →
    ∃ last, st.lastEnd = some last ∧ min stop n ≤ last
  isOpen : 0 < st.length → final = false ∧ st.pending = none ∧ st.lastEnd = some n ∧
    ∃ first stop, r.Finds stream upto first stop ∧ n ≤ stop ∧ st.length = n - first
  opened : ∀ first stop, r.Finds stream upto first stop → n ≤ stop → final = false →
    0 < st.length
  pending_iff : ∀ m, st.pending = some m ↔
    ∃ first stop, r.Finds stream upto first stop ∧ Ended n final stop ∧
      r.accepts (stop - first) = true ∧ m = r.runOf stream first stop ∧
      r.matchOf stream first stop ∉ reported
  reported : ∀ first stop, r.allowed.IsRun stream first stop →
    r.matchOf stream first stop ∈ reported → r.Finds stream upto first stop ∧ Ended n final stop

variable {r : Repeat} {stream : Bytes} {n n' : Nat} {final : Bool} {upto upto' : Key}
  {reported : List RawMatch} {st : RunState} {first stop first' stop' : Nat}

/-! ## Keys of runs -/

theorem keyAt_le (r : Repeat) (stream : Bytes) {a b : Nat} (h : a ≤ b) :
    r.keyAt stream a ≤ r.keyAt stream b := by
  rcases Nat.eq_or_lt_of_le h with rfl | hlt
  · exact le_refl _
  · exact le_of_lt (Key.lt_of_endsAt_lt hlt)

theorem key_runOf (r : Repeat) (stream : Bytes) (first stop : Nat) :
    (r.runOf stream first stop).key = r.keyAt stream stop := rfl

theorem trigger_le (h : r.allowed.IsRun stream first stop) :
    r.keyAt stream (first + 1) ≤ r.keyAt stream stop := r.keyAt_le stream h.lt

theorem Finds.mono (h : r.Finds stream upto first stop) (hle : upto ≤ upto') :
    r.Finds stream upto' first stop := ⟨h.isRun, lt_of_lt_of_le h.trigger hle⟩

theorem Finds.first_lt (h : r.Finds stream upto first stop) (hupto : upto ≤ ⟨n + 1, 0⟩) :
    first < n := by
  have hlt := lt_of_lt_of_le h.trigger hupto
  simp only [Key.lt_def, keyAt] at hlt
  omega

/-- The candidates before a byte start the runs that start before it. -/
theorem Finds.lt_of_keyAt (h : r.Finds stream (r.keyAt stream (first + 1)) first' stop') :
    first' < first := by
  refine Nat.lt_of_le_of_ne ?_ ?_
  · have htrigger := h.trigger
    simp only [Key.lt_def, keyAt] at htrigger
    omega
  · rintro rfl
    exact absurd h.trigger (lt_irrefl _)

theorem Finds.le_of_next (h : r.Finds stream (r.keyAt stream (first + 1)).next first' stop') :
    first' ≤ first := by
  have hend := Key.endsAt_le (Key.lt_next_iff.mp h.trigger)
  simp only [keyAt] at hend
  omega

/-- A run that starts before a byte was found before that byte was a candidate. -/
theorem Finds.of_lt (h : r.allowed.IsRun stream first' stop') (hlt : first' < first) :
    r.Finds stream (r.keyAt stream (first + 1)) first' stop' :=
  ⟨h, Key.lt_of_endsAt_lt (by simp only [keyAt]; omega)⟩

theorem start_found (r : Repeat) (stream : Bytes) : r.Found stream 0 false .first [] .start := by
  have hnot : ∀ first stop, ¬r.Finds stream .first first stop := fun first stop h =>
    absurd (Key.first_le (r.keyAt stream (first + 1))) (not_le_of_gt h.trigger)
  refine ⟨Key.first_le _, ?_, ?_, ?_, ?_, ?_, ?_⟩
  · intro last h
    cases h
  · exact fun first stop h => absurd h (hnot first stop)
  · intro h
    exact absurd h (by decide)
  · exact fun first stop h => absurd h (hnot first stop)
  · intro m
    constructor
    · intro h
      cases h
    · rintro ⟨first, stop, h, -⟩
      exact absurd h (hnot first stop)
  · intro first stop _ h
    exact absurd h List.not_mem_nil

namespace Found

theorem length_le (h : r.Found stream n final upto reported st) {last : Nat}
    (hlast : st.lastEnd = some last) : last ≤ n := by
  obtain ⟨first, stop, -, rfl⟩ := h.lastEnd last hlast
  exact Nat.min_le_right _ _

/-- Before the last chunk, a run that is open reaches the end of the bytes, and a match is
pending only after the run that it is in was closed. -/
theorem fits (h : r.Found stream n false upto reported st) : st.Fits n := by
  refine ⟨?_, fun hopen => (h.isOpen hopen).2.2.1, fun m hm => ?_⟩
  · rcases hlast : st.lastEnd with _ | last
    · exact Nat.zero_le n
    · exact h.length_le hlast
  · obtain ⟨first, stop, hfinds, hended, -, rfl, -⟩ := (h.pending_iff m).mp hm
    have hlt : stop < n := hended.resolve_right (by simp)
    obtain ⟨last, hlast, hle⟩ := h.covers first stop hfinds
    refine ⟨Nat.eq_zero_of_not_pos fun hopen => ?_, ?_⟩
    · rw [(h.isOpen hopen).2.1] at hm
      cases hm
    · rw [hlast]
      exact Nat.le_trans (Nat.le_of_eq (Nat.min_eq_left (Nat.le_of_lt hlt)).symm) hle

/-- If no run is open, the runs found have ended. -/
theorem ended (h : r.Found stream n final upto reported st) (hz : st.length = 0)
    (hf : r.Finds stream upto first stop) : Ended n final stop := by
  rcases hfinal : final with _ | _
  · refine Or.inl (Nat.lt_of_not_le fun hle => ?_)
    have := h.opened first stop hf hle hfinal
    omega
  · exact Or.inr rfl

/-- A match of a run that was not reported is pending, or the run is still open,
or it was not found. -/
theorem unreported (h : r.Found stream n final upto reported st)
    (hrun : r.allowed.IsRun stream first stop) (ha : r.accepts (stop - first) = true)
    (hnot : r.matchOf stream first stop ∉ reported) :
    st.pending = some (r.runOf stream first stop) ∨
      (final = false ∧ 0 < st.length ∧ n ≤ stop) ∨ upto ≤ r.keyAt stream (first + 1) := by
  by_cases htrigger : upto ≤ r.keyAt stream (first + 1)
  · exact Or.inr (Or.inr htrigger)
  · have hf : r.Finds stream upto first stop := ⟨hrun, lt_of_not_ge htrigger⟩
    by_cases he : Ended n final stop
    · exact Or.inl ((h.pending_iff _).mpr ⟨first, stop, hf, he, ha, rfl, hnot⟩)
    · have hstop : n ≤ stop := Nat.le_of_not_lt fun hlt => he (Or.inl hlt)
      have hfinal : final = false := by
        rcases hfinal : final with _ | _
        · rfl
        · exact absurd (Or.inr hfinal) he
      exact Or.inr (Or.inl ⟨hfinal, h.opened first stop hf hstop hfinal, hstop⟩)

/-! ## Steps that do not change the state -/

/-- Without an open run nothing changes when bytes follow. -/
theorem of_closed (h : r.Found stream n false upto reported st) (hz : st.length = 0)
    (hle : n ≤ n') (final : Bool) : r.Found stream n' final upto reported st := by
  have hstop : ∀ {first stop}, r.Finds stream upto first stop → stop < n := fun hf =>
    (h.ended hz hf).resolve_right (by simp)
  refine ⟨le_trans h.upto_le ?_, ?_, ?_, ?_, ?_, ?_, ?_⟩
  · simp only [Key.le_def]
    omega
  · intro last hlast
    obtain ⟨first, stop, hf, rfl⟩ := h.lastEnd last hlast
    have := hstop hf
    exact ⟨first, stop, hf, by omega⟩
  · intro first stop hf
    obtain ⟨last, hlast, hle'⟩ := h.covers first stop hf
    have := hstop hf
    exact ⟨last, hlast, by omega⟩
  · omega
  · intro first stop hf hn
    have := hstop hf
    omega
  · intro m
    rw [h.pending_iff]
    constructor
    · rintro ⟨first, stop, hf, -, hrest⟩
      have := hstop hf
      exact ⟨first, stop, hf, Or.inl (by omega), hrest⟩
    · rintro ⟨first, stop, hf, -, hrest⟩
      exact ⟨first, stop, hf, Or.inl (hstop hf), hrest⟩
  · intro first stop hrun hmem
    obtain ⟨hf, -⟩ := h.reported first stop hrun hmem
    have := hstop hf
    exact ⟨hf, Or.inl (by omega)⟩

/-- The candidates that follow do not start a run. -/
theorem raise (h : r.Found stream n final upto reported st) (hle : upto ≤ upto')
    (hupto : upto' ≤ ⟨n + 1, 0⟩)
    (hnone : ∀ first stop, r.Finds stream upto' first stop → r.Finds stream upto first stop) :
    r.Found stream n final upto' reported st := by
  refine ⟨hupto, ?_, ?_, ?_, ?_, ?_, ?_⟩
  · intro last hlast
    obtain ⟨first, stop, hf, rfl⟩ := h.lastEnd last hlast
    exact ⟨first, stop, hf.mono hle, rfl⟩
  · exact fun first stop hf => h.covers first stop (hnone first stop hf)
  · intro hpos
    obtain ⟨hfinal, hpending, hlast, first, stop, hf, hrest⟩ := h.isOpen hpos
    exact ⟨hfinal, hpending, hlast, first, stop, hf.mono hle, hrest⟩
  · exact fun first stop hf => h.opened first stop (hnone first stop hf)
  · intro m
    rw [h.pending_iff]
    constructor
    · rintro ⟨first, stop, hf, hrest⟩
      exact ⟨first, stop, hf.mono hle, hrest⟩
    · rintro ⟨first, stop, hf, hrest⟩
      exact ⟨first, stop, hnone first stop hf, hrest⟩
  · intro first stop hrun hmem
    obtain ⟨hf, he⟩ := h.reported first stop hrun hmem
    exact ⟨hf.mono hle, he⟩

/-- A byte of the last run found does not start another one. -/
theorem raise_of_known (h : r.Found stream n final (r.keyAt stream (first + 1)) reported st)
    (hlt : first < n) {last : Nat} (hlast : st.lastEnd = some last) (hknown : first + 1 ≤ last) :
    r.Found stream n final (r.keyAt stream (first + 1)).next reported st := by
  refine h.raise (le_of_lt (Key.lt_next _)) ?_ ?_
  · simp only [Key.le_def, Key.next, keyAt]
    omega
  · intro first' stop' hf
    refine ⟨hf.isRun, lt_of_le_of_ne (Key.lt_next_iff.mp hf.trigger) ?_⟩
    intro heq
    obtain rfl : first' = first := by
      have := congrArg Key.endsAt heq
      simp only [keyAt] at this
      omega
    obtain ⟨a, b, hfound, rfl⟩ := h.lastEnd last hlast
    have hkey := hfound.trigger
    have hrun := hf.isRun.lt
    simp only [Key.lt_def, keyAt] at hkey
    obtain ⟨rfl, -⟩ := hfound.isRun.eq_of_mem hf.isRun ⟨show a ≤ first' by omega, by omega⟩
      ⟨Nat.le_refl _, by omega⟩
    exact absurd hfound.trigger (lt_irrefl _)

/-- The match of something else is reported. -/
theorem append_other (h : r.Found stream n final upto reported st) {m : RawMatch}
    (hm : ∀ first stop, r.allowed.IsRun stream first stop → m ≠ r.matchOf stream first stop) :
    r.Found stream n final upto (reported ++ [m]) st := by
  have hmem : ∀ {first stop}, r.allowed.IsRun stream first stop →
      (r.matchOf stream first stop ∈ reported ++ [m] ↔ r.matchOf stream first stop ∈ reported) := by
    intro first stop hrun
    have hne := Ne.symm (hm first stop hrun)
    simp [hne]
  refine ⟨h.upto_le, h.lastEnd, h.covers, h.isOpen, h.opened, ?_, ?_⟩
  · intro m
    rw [h.pending_iff]
    constructor
    · rintro ⟨first, stop, hf, he, ha, heq, hnot⟩
      exact ⟨first, stop, hf, he, ha, heq, by rwa [hmem hf.isRun]⟩
    · rintro ⟨first, stop, hf, he, ha, heq, hnot⟩
      exact ⟨first, stop, hf, he, ha, heq, by rwa [hmem hf.isRun] at hnot⟩
  · intro first stop hrun hin
    exact h.reported first stop hrun ((hmem hrun).mp hin)

/-- The pending match is reported. -/
theorem append_own (h : r.Found stream n final upto reported st)
    (hpending : st.pending = some (r.runOf stream first stop)) :
    r.Found stream n final upto (reported ++ [r.matchOf stream first stop]) st.take := by
  obtain ⟨a, b, hfound, hended, ha, heq, hnot⟩ := (h.pending_iff _).mp hpending
  obtain ⟨rfl, rfl⟩ : first = a ∧ stop = b :=
    ⟨congrArg Run.startsAt heq, congrArg Run.endsAt heq⟩
  refine ⟨h.upto_le, h.lastEnd, h.covers, ?_, h.opened, ?_, ?_⟩
  · intro hpos
    obtain ⟨hfinal, -, hrest⟩ := h.isOpen hpos
    exact ⟨hfinal, rfl, hrest⟩
  · intro m
    constructor
    · intro hm
      cases hm
    · rintro ⟨first', stop', hf, he, ha', rfl, hnot'⟩
      rw [List.mem_append, not_or] at hnot'
      have hother := (h.pending_iff _).mpr ⟨first', stop', hf, he, ha', rfl, hnot'.1⟩
      rw [hpending, Option.some.injEq] at hother
      obtain ⟨rfl, rfl⟩ : first = first' ∧ stop = stop' :=
        ⟨congrArg Run.startsAt hother, congrArg Run.endsAt hother⟩
      exact absurd (List.mem_singleton_self _) hnot'.2
  · intro first' stop' hrun hin
    rcases List.mem_append.mp hin with hin | hin
    · exact h.reported first' stop' hrun hin
    · have hsame := List.mem_singleton.mp hin
      obtain ⟨rfl, rfl⟩ : first' = first ∧ stop' = stop :=
        ⟨congrArg RawMatch.startsAt hsame, congrArg (fun m : RawMatch => m.key.endsAt) hsame⟩
      exact ⟨hfound, hended⟩

end Found

/-! ## The current run -/

/-- A run is the last one that was found, and nothing is left to do for those
before it. -/
structure Latest (r : Repeat) (stream : Bytes) (n : Nat) (final : Bool) (upto : Key)
    (reported : List RawMatch) (first stop : Nat) : Prop where
  upto_le : upto ≤ ⟨n + 1, 0⟩
  finds : r.Finds stream upto first stop
  last : ∀ first' stop', r.Finds stream upto first' stop' → first' ≤ first
  others : ∀ first' stop', r.Finds stream upto first' stop' → first' < first →
    r.accepts (stop' - first') = true → r.matchOf stream first' stop' ∈ reported
  not_reported : r.matchOf stream first stop ∉ reported
  reported : ∀ first' stop', r.allowed.IsRun stream first' stop' →
    r.matchOf stream first' stop' ∈ reported →
    r.Finds stream upto first' stop' ∧ Ended n final stop'

namespace Latest

/-- The runs found end before the last one, or are the last one. -/
theorem cases (h : r.Latest stream n final upto reported first stop)
    (hf : r.Finds stream upto first' stop') :
    (first' = first ∧ stop' = stop) ∨ (first' < first ∧ stop' < first) := by
  rcases Nat.eq_or_lt_of_le (h.last first' stop' hf) with rfl | hlt
  · have hlt := hf.isRun.lt
    have hlt' := h.finds.isRun.lt
    obtain ⟨-, rfl⟩ := hf.isRun.eq_of_mem h.finds.isRun ⟨Nat.le_refl _, hlt⟩ ⟨Nat.le_refl _, hlt'⟩
    exact Or.inl ⟨rfl, rfl⟩
  · exact Or.inr ⟨hlt, hf.isRun.stop_lt h.finds.isRun hlt⟩

/-- The last run reaches the end of the bytes and can go on. -/
theorem found_open (h : r.Latest stream n false upto reported first stop) (hstop : n ≤ stop) :
    r.Found stream n false upto reported ⟨some n, n - first, none⟩ := by
  have hlt := h.finds.first_lt h.upto_le
  refine ⟨h.upto_le, ?_, ?_, ?_, ?_, ?_, h.reported⟩
  · rintro last ⟨⟩
    exact ⟨first, stop, h.finds, by omega⟩
  · exact fun first' stop' _ => ⟨n, rfl, Nat.min_le_right _ _⟩
  · exact fun _ => ⟨rfl, rfl, rfl, first, stop, h.finds, hstop, rfl⟩
  · intro first' stop' _ _ _
    simp only
    omega
  · intro m
    constructor
    · intro hm
      cases hm
    · rintro ⟨first', stop', hf, he, ha, -, hnot⟩
      rcases h.cases hf with ⟨rfl, rfl⟩ | ⟨hlt', -⟩
      · rcases he with he | he
        · omega
        · cases he
      · exact absurd (h.others first' stop' hf hlt' ha) hnot

/-- The last run has ended. -/
theorem found_closed (h : r.Latest stream n final upto reported first stop)
    (hended : Ended n final stop) (hle : stop ≤ n) :
    r.Found stream n final upto reported ⟨some stop, 0,
      if r.accepts (stop - first) = true then some (r.runOf stream first stop) else none⟩ := by
  have hlt := h.finds.isRun.lt
  refine ⟨h.upto_le, ?_, ?_, ?_, ?_, ?_, h.reported⟩
  · rintro last ⟨⟩
    exact ⟨first, stop, h.finds, by omega⟩
  · intro first' stop' hf
    refine ⟨stop, rfl, ?_⟩
    rcases h.cases hf with ⟨-, rfl⟩ | ⟨-, hlt'⟩
    · omega
    · omega
  · intro hpos
    exact absurd hpos (Nat.lt_irrefl 0)
  · intro first' stop' hf hn hfinal
    rcases hended with he | he
    · rcases h.cases hf with ⟨-, rfl⟩ | ⟨-, hlt'⟩
      · omega
      · omega
    · rw [hfinal] at he
      cases he
  · intro m
    simp only [Option.ite_none_right_eq_some, Option.some.injEq]
    constructor
    · rintro ⟨ha, rfl⟩
      exact ⟨first, stop, h.finds, hended, ha, rfl, h.not_reported⟩
    · rintro ⟨first', stop', hf, he, ha, rfl, hnot⟩
      rcases h.cases hf with ⟨rfl, rfl⟩ | ⟨hlt', -⟩
      · exact ⟨ha, rfl⟩
      · exact absurd (h.others first' stop' hf hlt' ha) hnot

end Latest

namespace Found

/-- An open run is the last one when more bytes follow. -/
theorem latest_of_open (h : r.Found stream n false upto reported st) (hpos : 0 < st.length)
    (hle : n ≤ n') (final : Bool) :
    ∃ first stop, first < n ∧ n ≤ stop ∧ st = ⟨some n, n - first, none⟩ ∧
      r.Latest stream n' final upto reported first stop := by
  obtain ⟨-, hpending, hlast, first, stop, hf, hstop, hlength⟩ := h.isOpen hpos
  have hlt := hf.first_lt h.upto_le
  refine ⟨first, stop, hlt, hstop, ?_, le_trans h.upto_le ?_, hf, ?_, ?_, ?_, ?_⟩
  · cases st
    simp only at hpending hlast hlength
    rw [hpending, hlast, hlength]
  · simp only [Key.le_def]
    omega
  · intro first' stop' hf'
    refine Nat.le_of_not_lt fun hlt' => ?_
    have := hf.isRun.stop_lt hf'.isRun hlt'
    have := hf'.first_lt h.upto_le
    omega
  · intro first' stop' hf' hlt' ha
    have hbefore := hf'.isRun.stop_lt hf.isRun hlt'
    refine Decidable.byContradiction fun hnot => ?_
    have hsome := (h.pending_iff _).mpr
      ⟨first', stop', hf', Or.inl (by omega), ha, rfl, hnot⟩
    rw [hpending] at hsome
    cases hsome
  · intro hmem
    rcases (h.reported first stop hf.isRun hmem).2 with he | he
    · omega
    · cases he
  · intro first' stop' hrun hmem
    obtain ⟨hf', he⟩ := h.reported first' stop' hrun hmem
    have := he.resolve_right (by simp)
    exact ⟨hf', Or.inl (by omega)⟩

section Start

variable (h : r.Found stream n final (r.keyAt stream (first + 1)) reported st)
include h

/-- A byte of the class after the last run is the first byte of a run. -/
theorem exists_isRun (hsize : first < stream.size)
    (hb : r.allowed.contains (byteAt stream first) = true) (hlt : first < n)
    (hknown : ∀ last, st.lastEnd = some last → last ≤ first) :
    ∃ stop, r.allowed.IsRun stream first stop := by
  obtain ⟨a, stop, hrun, hle, hstop⟩ := ByteClass.exists_isRun hsize hb
  have hfirst : a = first := by
    refine Nat.le_antisymm hle (Nat.le_of_not_lt fun hbefore => ?_)
    obtain ⟨last, hlast, hmin⟩ := h.covers a stop (.of_lt hrun hbefore)
    have := hknown last hlast
    omega
  exact ⟨stop, hfirst ▸ hrun⟩

theorem length_eq_zero (hlt : first < n) (hknown : ∀ last, st.lastEnd = some last → last ≤ first) :
    st.length = 0 := by
  refine Nat.eq_zero_of_not_pos fun hpos => ?_
  obtain ⟨-, -, hlast, -⟩ := h.isOpen hpos
  have := hknown n hlast
  omega

/-- A match of a run before this one goes before all of its bytes. -/
theorem pending_eq_none (hrun : r.allowed.IsRun stream first stop)
    (hpending : ∀ m, st.pending = some m → r.keyAt stream (first + 1) ≤ m.key) :
    st.pending = none := by
  rcases hp : st.pending with _ | m
  · rfl
  · obtain ⟨first', stop', hf, -, -, rfl, -⟩ := (h.pending_iff m).mp hp
    have hkey := Key.endsAt_le (hpending _ hp)
    rw [key_runOf] at hkey
    simp only [keyAt] at hkey
    have := hf.isRun.stop_lt hrun hf.lt_of_keyAt
    omega

/-- A candidate that is a byte after the last run starts a run. The match that
was pending goes before it, so none is pending when all matches before the
candidate were reported. -/
theorem latest_of_start (hlt : first < n) (hsize : n ≤ stream.size)
    (hb : r.allowed.contains (byteAt stream first) = true)
    (hknown : ∀ last, st.lastEnd = some last → last ≤ first)
    (hpending : ∀ m, st.pending = some m → r.keyAt stream (first + 1) ≤ m.key) :
    ∃ stop, st.length = 0 ∧ st.pending = none ∧
      r.Latest stream n final (r.keyAt stream (first + 1)).next reported first stop := by
  obtain ⟨stop, hrun⟩ := h.exists_isRun (by omega) hb hlt hknown
  have hlength := h.length_eq_zero hlt hknown
  have hnone := h.pending_eq_none hrun hpending
  refine ⟨stop, hlength, hnone, ?_, ⟨hrun, Key.lt_next _⟩, fun _ _ hf => hf.le_of_next, ?_, ?_, ?_⟩
  · simp only [Key.le_def, Key.next, keyAt]
    omega
  · intro first' stop' hf hbefore ha
    refine Decidable.byContradiction fun hnot => ?_
    have hf' : r.Finds stream (r.keyAt stream (first + 1)) first' stop' := .of_lt hf.isRun hbefore
    have hsome := (h.pending_iff _).mpr ⟨first', stop', hf', h.ended hlength hf', ha, rfl, hnot⟩
    rw [hnone] at hsome
    cases hsome
  · intro hmem
    exact absurd (h.reported first stop hrun hmem).1.trigger (lt_irrefl _)
  · intro first' stop' hrun' hmem
    obtain ⟨hf, he⟩ := h.reported first' stop' hrun' hmem
    exact ⟨hf.mono (le_of_lt (Key.lt_next _)), he⟩

end Start

end Found

end StreamMatch.Repeat
