-- The points that a scan goes through. At each one the matches reported so far
-- are the first ones of the stream, all the literals that end before some key
-- were processed, and the states of the repeats agree with the runs found.
import StreamMatch.Proofs.Matches.Kept
import StreamMatch.Proofs.Repeat.Found
import StreamMatch.Proofs.Scan.Core
import StreamMatch.Proofs.Scan.Input

namespace StreamMatch

open Bytes

/-! ## Answers -/

namespace Policy

/-- The policy proceeds after each of some events. -/
def Allows (policy : Policy) (events : List Event) : Prop :=
  ∀ es, es <+: events → es ≠ [] → policy es.toArray = .proceed

/-- The policy gives an answer after some events, and proceeds after those before
the last one. -/
def Answers (policy : Policy) (events : List Event) : Action → Prop
  | .proceed => policy.Allows events
  | .stop => ∃ before last, events = before ++ [last] ∧ policy.Allows before ∧
      policy events.toArray = .stop

theorem answers_append {policy : Policy} {events : List Event} (h : policy.Allows events)
    (e : Event) : policy.Answers (events ++ [e]) (policy (events ++ [e]).toArray) := by
  rcases ha : policy (events ++ [e]).toArray with _ | _
  · intro es hes hne
    rcases List.prefix_concat_iff.mp hes with rfl | hes
    · exact ha
    · exact h es hes hne
  · exact ⟨events, e, rfl, h, ha⟩

theorem allows_nil (policy : Policy) : policy.Allows [] := fun _ hes hne =>
  absurd (List.prefix_nil.mp hes) hne

end Policy

namespace Scan

/-- A scan of a part of a stream, with the candidates from the key `resume`
on. -/
structure Over (s : Scan) (stream : Bytes) (resume : Key) : Prop where
  sound : s.program.Sound
  shows : s.input.Shows stream
  size_lt : stream.size < 0x4000000000000000
  trackers_eq : s.trackers = s.program.repeats.toList.map s.program.layout.place
  final_eq : s.isFinal = true → s.input.stop = stream.size
  floor_eq : s.input.floor = s.input.chunkStart - s.program.historySize
  resume_le : resume ≤ ⟨s.input.chunkStart + 1, 0⟩
  chunkStart_le : s.input.chunkStart ≤ resume.endsAt + s.program.lookahead

/-- The events of a scan, after those of the scans before, are the ones of the
matches reported so far. No event waits for its answer. -/
structure Tells (s : Scan) (past : List Event) (c : Core) (reported : List RawMatch)
    (a : Action) : Prop where
  events_eq : past ++ c.events.toList = s.program.eventsOf reported
  answers : s.policy.Answers c.events.toList a
  phase_eq : c.phase = .after a

/-- A point of a scan of the part of a stream, when the candidates before the key
`upto` were processed. -/
structure Point (s : Scan) (stream base : Bytes) (past : List Event) (upto : Key) (c : Core)
    (reported : List RawMatch) (states : Repeat → RunState) : Prop where
  keeps : s.program.Keeps base c.region states
    (s.program.entryAfter (s.program.kept reported))
  found : ∀ r ∈ s.program.repeats,
    r.Found stream s.input.stop s.isFinal upto reported (states r)
  ordered : reported <+: s.program.rawMatches stream
  below : ∀ m ∈ reported, m.key < upto
  literals : ∀ m ∈ s.program.literalMatches stream, m ∈ reported ↔ m.key < upto
  tells : s.Tells past c reported .proceed

/-- A point where the policy stopped the scan. -/
structure Halted (s : Scan) (stream base : Bytes) (past : List Event) (c : Core) : Prop where
  same : s.program.SameHeader base c.region
  size_eq : c.region.size = s.program.layout.size
  told : ∃ reported, reported <+: s.program.rawMatches stream ∧ s.Tells past c reported .stop

variable {s : Scan} {stream base : Bytes} {resume upto : Key} {past : List Event} {c : Core}
  {reported : List RawMatch} {states : Repeat → RunState} {m : RawMatch}

/-- The events stay as they are where nothing is reported. -/
theorem Tells.of_silent {a : Action} (h : s.Tells past c reported a) {c' : Core}
    (hc : c.Silent c') : s.Tells past c' reported a :=
  ⟨by rw [hc.events_eq]; exact h.events_eq, by rw [hc.events_eq]; exact h.answers,
    hc.phase_eq.trans h.phase_eq⟩

namespace Over

theorem stop_le (hs : s.Over stream resume) : s.input.stop ≤ stream.size :=
  hs.shows.data.le_size

theorem size_lt_sizeBound (hs : s.Over stream resume) : stream.size < sizeBound :=
  Nat.lt_trans hs.size_lt (by decide)

theorem chunkEnd_eq (hs : s.Over stream resume) : s.input.chunkEnd = .ok s.input.stop := by
  have hle := hs.stop_le
  have hlt := hs.size_lt
  have hbound : Word.bound = 0x10000000000000000 := rfl
  exact Input.chunkEnd_eq_ok (by unfold Input.stop at hle; omega)

theorem historySize_pos (hs : s.Over stream resume) : 0 < s.program.historySize :=
  hs.sound.layout.historySize_pos

end Over

/-- The candidates up to a later key are left out, if they neither start a run nor
match. -/
theorem Point.raise {upto' : Key} (h : s.Point stream base past upto c reported states)
    (hle : upto ≤ upto') (hupto : upto' ≤ ⟨s.input.stop + 1, 0⟩)
    (hruns : ∀ r ∈ s.program.repeats, ∀ first stop, r.Finds stream upto' first stop →
      r.Finds stream upto first stop)
    (hliterals : ∀ m ∈ s.program.literalMatches stream, m.key < upto' → m.key < upto) :
    s.Point stream base past upto' c reported states := by
  refine ⟨h.keeps, fun r hr => (h.found r hr).raise hle hupto (hruns r hr), h.ordered,
    fun m hm => lt_of_lt_of_le (h.below m hm) hle, ?_, h.tells⟩
  intro m hm
  rw [h.literals m hm]
  exact ⟨fun hlt => lt_of_lt_of_le hlt hle, hliterals m hm⟩

/-! ## Reporting a match -/

/-- What reporting a match leaves. -/
structure Reports (s : Scan) (base : Bytes) (past : List Event) (c : Core)
    (reported : List RawMatch) (states : Repeat → RunState) (m : RawMatch) (c' : Core)
    (a : Action) : Prop where
  report_eq : ∀ window ties, s.report (c.on window ties) m.pattern m.startsAt m.key.endsAt =
    .ok (c'.on window ties, a)
  pending_eq : c'.pending = c.pending
  keeps : s.program.Keeps base c'.region states
    (s.program.entryAfter (s.program.kept (reported ++ [m])))
  tells : s.Tells past c' (reported ++ [m]) a

/-- A match can be reported while no event waits for its answer. -/
theorem requireScanning_eq (h : c.phase = .scanning) (window : Bytes) (ties : List Candidate) :
    Checked.require (decide ((c.on window ties).phase = .scanning)) .brokenCondition = .ok () := by
  rw [decide_eq_true (show (c.on window ties).phase = .scanning from h)]
  rfl

section Report

variable (hs : s.Over stream resume)
  (hk : s.program.Keeps base c.region states (s.program.entryAfter (s.program.kept reported)))
  (hpre : reported ++ [m] <+: s.program.rawMatches stream)
  (ht : s.Tells past c reported .proceed)
include hs hk hpre ht

/-- A match that an earlier one hides is left out. -/
theorem report_of_hidden (hhidden : (s.program.kept reported).any (s.program.hides m) = true)
    (hredundant : isRedundant (s.program.entryAfter (s.program.kept reported) m.pattern.toNat)
      m.key.endsAt = true) : s.Reports base past c reported states m c .proceed := by
  have hmem : m ∈ s.program.rawMatches stream := hpre.subset (by simp)
  have hpattern := hs.sound.pattern_lt hmem
  have hsame : s.program.kept (reported ++ [m]) = s.program.kept reported := by
    rw [Program.kept_append, Program.keepOne, if_pos hhidden]
  have hentry : ∀ window ties, s.entry (c.on window ties) m.pattern =
      .ok (s.program.entryAfter (s.program.kept reported) m.pattern.toNat) :=
    fun window ties => hk.pattern_eq hs.sound hpattern
  refine ⟨?_, rfl, by rwa [hsame], ?_, ht.answers, ht.phase_eq⟩
  · intro window ties
    unfold report
    rw [requireScanning_eq ht.phase_eq, Array.getElem?_eq_getElem hpattern, hentry]
    simp only [Checked.some?, Checked.ok_bind, hredundant, if_true, Checked.pure_eq]
  · rw [Program.eventsOf_of_hidden hhidden]
    exact ht.events_eq

/-- Any other match is written down and told. -/
theorem report_of_not_hidden
    (hhidden : (s.program.kept reported).any (s.program.hides m) = false)
    (hredundant : isRedundant (s.program.entryAfter (s.program.kept reported) m.pattern.toNat)
      m.key.endsAt = false) : ∃ c' a, s.Reports base past c reported states m c' a := by
  have hmem : m ∈ s.program.rawMatches stream := hpre.subset (by simp)
  have hpattern := hs.sound.pattern_lt hmem
  have hend := Program.Sound.endsAt_le hmem
  have hlt := hs.size_lt
  have hget : s.program.patterns[m.pattern.toNat]? = some s.program.patterns[m.pattern.toNat] :=
    Array.getElem?_eq_getElem hpattern
  have hflags : s.program.flagsOf m.pattern = s.program.patterns[m.pattern.toNat].flags := by
    unfold Program.flagsOf
    rw [hget]
    rfl
  have hentry : ∀ window ties, s.entry (c.on window ties) m.pattern =
      .ok (s.program.entryAfter (s.program.kept reported) m.pattern.toNat) :=
    fun window ties => hk.pattern_eq hs.sound hpattern
  have hbit : PatternEntry.exhaustedBit = 0x8000000000000000 := rfl
  obtain ⟨region', hset, hkeeps⟩ := hk.exists_setPattern hs.sound hpattern
    (show m.key.endsAt + 1 < PatternEntry.exhaustedBit by omega)
    (s.program.flagsOf m.pattern).singleMatch
  let answer := s.policy (c.events.push (s.program.eventOf m))
  refine ⟨⟨region', c.pending, .after answer, c.events.push (s.program.eventOf m)⟩, answer, ?_, rfl,
    ?_, ?_, ?_, rfl⟩
  · intro window ties
    unfold report
    rw [requireScanning_eq ht.phase_eq, hget, hentry]
    simp only [Checked.some?, Checked.ok_bind, hredundant, Bool.false_eq_true, if_false,
      Progress.update, Core.on, ← hflags, hset, Checked.pure_eq, Progress.deliver, Progress.tell,
      Progress.resume, Program.eventOf, answer]
  · have hupdate : s.program.entryAfter (s.program.kept (reported ++ [m])) =
        Function.update (s.program.entryAfter (s.program.kept reported)) m.pattern.toNat
          ⟨some m.key.endsAt, (s.program.flagsOf m.pattern).singleMatch⟩ := by
      funext i
      rw [Program.kept_append, Program.keepOne, if_neg (by simp [hhidden]),
        Program.entryAfter_append, Function.update_apply]
      by_cases hi : m.pattern.toNat = i
      · rw [if_pos hi, if_pos hi.symm]
      · rw [if_neg hi, if_neg (Ne.symm hi)]
    rwa [hupdate]
  · rw [Program.eventsOf_of_not_hidden hhidden, ← ht.events_eq, Array.toList_push,
      List.append_assoc]
  · have hanswer := Policy.answers_append ht.answers (s.program.eventOf m)
    rwa [← Array.toList_push] at hanswer

theorem report_spec : ∃ c' a, s.Reports base past c reported states m c' a := by
  have hsorted := hs.sound.pairwise_rawMatches.sublist hpre.sublist
  have hkept := hsorted.sublist
    ((Program.kept_sublist (p := s.program) reported).append (List.Sublist.refl [m]))
  have hredundant := Program.isRedundant_entryAfter (p := s.program) hkept
  cases hhidden : (s.program.kept reported).any (s.program.hides m) with
  | true => exact ⟨c, .proceed, report_of_hidden hs hk hpre ht hhidden (hredundant.trans hhidden)⟩
  | false => exact report_of_not_hidden hs hk hpre ht hhidden (hredundant.trans hhidden)

end Report

end Scan

end StreamMatch
