-- The candidates of a chunk, one after the other. A candidate is processed when
-- all the matches that go before it were reported, or deferred together with
-- those after it.
import StreamMatch.Proofs.Scan.Candidates
import StreamMatch.Proofs.Scan.Confirm
import StreamMatch.Proofs.Scan.Runs

namespace StreamMatch.Scan

open Bytes

variable {s : Scan} {stream base : Bytes} {resume upto : Key} {past : List Event} {c : Core}
  {reported : List RawMatch} {states : Repeat → RunState} {cand : Candidate} {start : Nat}

/-- A point with the pending matches counted. -/
def Settled (s : Scan) (stream base : Bytes) (past : List Event) (upto : Key) (c : Core) : Prop :=
  ∃ reported states, s.Point stream base past upto c reported states ∧
    c.pending.Counts s.program.repeats.toList states

/-- A candidate can be deferred if it needs bytes after the chunk. -/
structure Defers (s : Scan) (stream base : Bytes) (past : List Event) (key : Key) (c : Core) :
    Prop where
  settled : s.Settled stream base past key c
  not_final : s.isFinal = false
  endsAt_le : key.endsAt ≤ s.input.stop
  stop_lt : s.input.stop < key.endsAt + max s.program.lookahead 1
  rank_lt : key.rank < 0x100000000

/-- A candidate whose turn it is: what goes before it was reported, and no run can
still go before it. -/
structure Turn (s : Scan) (stream base : Bytes) (past : List Event) (c : Core) (cand : Candidate)
    (start : Nat) (reported : List RawMatch) (states : Repeat → RunState) : Prop where
  occurs : s.Occurs stream cand start
  point : s.Point stream base past cand.key c reported states
  counts : c.pending.Counts s.program.repeats.toList states
  endsAt_le : cand.endsAt ≤ s.input.stop
  waits : s.Waits states cand.key
  key_le : ∀ r ∈ s.program.repeats, 0 < (states r).length →
    ∀ stop, s.input.stop ≤ stop → cand.key ≤ r.keyAt stream stop

/-- What processing a candidate leaves. -/
def Passes (s : Scan) (stream base : Bytes) (past : List Event) (key : Key) (c : Core) :
    Step → Prop
  | .proceed => s.Settled stream base past key.next c
  | .defer deferred => deferred = key ∧ s.Defers stream base past key c
  | .stop => s.Halted stream base past c

/-! ## What the operations do -/

/-- An occurrence of a literal that is where it has to be, and whose match would be
reported. -/
structure Wanted (s : Scan) (pr : Progress) (l : Literal) (id : PatternId) (cand : Candidate)
    (start : Nat) : Prop where
  start_eq : Word.sub cand.endsAt l.bytes.size = .ok start
  in_place : ¬(l.anchored = true ∧ start ≠ 0)
  needed : ∃ e, s.entry pr id = .ok e ∧ ¬isRedundant e cand.endsAt = true

section Operations

variable {pr pr₁ pr' : Progress} {l : Literal} {id : PatternId} {automaton : AutomatonId}
  {first : Nat} {answer : Action} {group : List Candidate}
  {groups : List (Checked (List Candidate))}

theorem Wanted.processLiteral_of_none (h : s.Wanted pr l id cand start)
    (ha : l.automaton = none)
    (hreport : s.report pr id start cand.endsAt = .ok (pr', answer)) :
    s.processLiteral pr l id cand = .ok (pr', .ofAction answer) := by
  obtain ⟨e, hentry, hneeded⟩ := h.needed
  simp only [processLiteral, h.start_eq, Checked.ok_bind, if_neg h.in_place, hentry,
    if_neg hneeded, ha, hreport, Checked.pure_eq]

theorem Wanted.processLiteral_of_rejected (h : s.Wanted pr l id cand start)
    (ha : l.automaton = some automaton)
    (hconfirm : s.confirm pr automaton start = .ok (pr', .rejected)) :
    s.processLiteral pr l id cand = .ok (pr', .proceed) := by
  obtain ⟨e, hentry, hneeded⟩ := h.needed
  simp only [processLiteral, h.start_eq, Checked.ok_bind, if_neg h.in_place, hentry,
    if_neg hneeded, ha, hconfirm, Checked.pure_eq]

theorem Wanted.processLiteral_of_undecided (h : s.Wanted pr l id cand start)
    (ha : l.automaton = some automaton)
    (hconfirm : s.confirm pr automaton start = .ok (pr', .undecided)) :
    s.processLiteral pr l id cand = .ok (pr', .defer cand.key) := by
  obtain ⟨e, hentry, hneeded⟩ := h.needed
  simp only [processLiteral, h.start_eq, Checked.ok_bind, if_neg h.in_place, hentry,
    if_neg hneeded, ha, hconfirm, Checked.pure_eq]

theorem Wanted.processLiteral_of_confirmed (h : s.Wanted pr l id cand start)
    (ha : l.automaton = some automaton)
    (hconfirm : s.confirm pr automaton start = .ok (pr₁, .confirmed first))
    (hreport : s.report pr₁ id first cand.endsAt = .ok (pr', answer)) :
    s.processLiteral pr l id cand = .ok (pr', .ofAction answer) := by
  obtain ⟨e, hentry, hneeded⟩ := h.needed
  simp only [processLiteral, h.start_eq, Checked.ok_bind, if_neg h.in_place, hentry,
    if_neg hneeded, ha, hconfirm, hreport, Checked.pure_eq]

theorem visitGroups_of_proceed
    (h : s.visitEach { pr with ties := group }
      (group.filter fun cand => decide (resume ≤ cand.key)) = .ok (pr', .proceed)) :
    s.visitGroups pr resume (.ok group :: groups) = s.visitGroups pr' resume groups := by
  rw [visitGroups]
  simp only [Checked.ok_bind, h]

theorem visitGroups_of_stopped {step : Step} (hstep : step ≠ .proceed)
    (h : s.visitEach { pr with ties := group }
      (group.filter fun cand => decide (resume ≤ cand.key)) = .ok (pr', step)) :
    s.visitGroups pr resume (.ok group :: groups) = .ok (pr', step) := by
  rw [visitGroups]
  simp only [Checked.ok_bind, h]
  cases step with
  | proceed => exact absurd rfl hstep
  | defer key => rfl
  | stop => rfl

variable (hextend : s.extendOpenRuns pr s.trackers = .ok pr₁)
include hextend

theorem search_of_stop (h : s.visitGroups pr₁ resume groups = .ok (pr', .stop)) :
    s.search pr resume groups = .ok (pr', .stop) := by
  simp only [search, hextend, Checked.ok_bind, h, Checked.pure_eq]

theorem search_of_defer {key : Key}
    (h : s.visitGroups pr₁ resume groups = .ok (pr', .defer key)) :
    s.search pr resume groups = s.finish pr' (some key) := by
  simp only [search, hextend, Checked.ok_bind, h]

theorem search_of_proceed (h : s.visitGroups pr₁ resume groups = .ok (pr', .proceed)) :
    s.search pr resume groups = s.finish pr' none := by
  simp only [search, hextend, Checked.ok_bind, h]

end Operations

/-! ## One candidate -/

/-- The first byte of a literal is in the input. -/
theorem floor_le (hs : s.Over stream resume) {i : Nat} {l : Literal}
    (hl : s.program.literals[i]? = some l) (hresume : resume.endsAt ≤ start + l.bytes.size) :
    s.input.floor ≤ start := by
  have hlong := hs.sound.size_le l (Array.mem_of_getElem? hl)
  have hhistory := hs.sound.history
  have hfloor := hs.floor_eq
  have hchunk := hs.chunkStart_le
  unfold Program.historySize at hfloor
  omega

/-- A match that its entry leaves out changes nothing. -/
theorem tells_of_redundant (hs : s.Over stream resume) {m : RawMatch}
    (hpre : reported ++ [m] <+: s.program.rawMatches stream)
    (hredundant : isRedundant (s.program.entryAfter (s.program.kept reported) m.pattern.toNat)
      m.key.endsAt = true)
    (ht : s.Tells past c reported .proceed) :
    s.program.kept (reported ++ [m]) = s.program.kept reported ∧
      s.Tells past c (reported ++ [m]) .proceed := by
  have hsorted := hs.sound.pairwise_rawMatches.sublist hpre.sublist
  have hkept := hsorted.sublist
    ((Program.kept_sublist (p := s.program) reported).append (List.Sublist.refl [m]))
  rw [Program.isRedundant_entryAfter hkept] at hredundant
  refine ⟨?_, ?_, ht.answers, ht.phase_eq⟩
  · rw [Program.kept_append, Program.keepOne, if_pos hredundant]
  · rw [Program.eventsOf_of_hidden hredundant]
    exact ht.events_eq

namespace Turn

variable {l : Literal} {id : PatternId}

section Literals

variable (hs : s.Over stream resume) (h : s.Turn stream base past c cand start reported states)
  (hl : s.program.literals[cand.literal.toNat]? = some l) (ht : l.target = .pattern id)
include hs h hl ht

/-- The match of the candidate, if it is confirmed. -/
theorem literalMatch?_eq (hplace : ¬(l.anchored = true ∧ start ≠ 0)) {first : Nat}
    (hfirst : s.program.confirmedStart? stream l start = some first) :
    s.program.literalMatch? stream cand.literal.toNat l start =
      some ⟨cand.key, id, first⟩ := by
  obtain ⟨l', hl', -, hstands, hck⟩ := h.occurs.spec hs
  rw [hl, Option.some.injEq] at hl'
  subst hl'
  have hzero : l.anchored = true → start = 0 := fun hanchored =>
    Decidable.byContradiction fun hne => hplace ⟨hanchored, hne⟩
  exact Program.literalMatch?_eq_some.mpr ⟨ht, hstands, hzero, hfirst, hck⟩

/-- A candidate that is not a match. -/
theorem settled_of_none
    (hnone : s.program.literalMatch? stream cand.literal.toNat l start = none) :
    s.Settled stream base past cand.key.next c :=
  ⟨reported, states, h.point.pass hs h.occurs hl ht h.endsAt_le hnone, h.counts⟩

/-- A candidate whose match, if there is one, would not be reported. -/
theorem settled_of_redundant (hplace : ¬(l.anchored = true ∧ start ≠ 0))
    (hredundant : isRedundant (s.program.entryAfter (s.program.kept reported) id.toNat)
      cand.endsAt = true) : s.Settled stream base past cand.key.next c := by
  rcases hfirst : s.program.confirmedStart? stream l start with _ | first
  · exact h.settled_of_none hs hl ht (Program.literalMatch?_of_unconfirmed hfirst)
  · obtain ⟨hkey, hmem, hpre⟩ := h.point.next_of_candidate hs h.occurs hl h.waits h.key_le
      (h.literalMatch?_eq hs hl ht hplace hfirst)
    obtain ⟨hsame, htells⟩ := tells_of_redundant hs hpre hredundant h.point.tells
    have hkeeps := h.point.keeps
    rw [← hsame] at hkeeps
    exact ⟨_, states, h.point.pass_match hs h.occurs hl ht h.endsAt_le hkey hmem hpre hkeeps
      htells, h.counts⟩

/-- Reporting the match of a candidate. -/
theorem report_spec (hplace : ¬(l.anchored = true ∧ start ≠ 0)) {first : Nat}
    (hfirst : s.program.confirmedStart? stream l start = some first) :
    ∃ c' a, (∀ window ties, s.report (c.on window ties) id first cand.endsAt =
        .ok (c'.on window ties, a)) ∧
      s.Passes stream base past cand.key c' (.ofAction a) := by
  obtain ⟨hkey, hmem, hpre⟩ := h.point.next_of_candidate hs h.occurs hl h.waits h.key_le
    (h.literalMatch?_eq hs hl ht hplace hfirst)
  obtain ⟨c', a, hreport, hpending, hk, htells⟩ :=
    Scan.report_spec hs h.point.keeps hpre h.point.tells
  refine ⟨c', a, hreport, ?_⟩
  cases a with
  | proceed =>
    refine ⟨_, states, h.point.pass_match hs h.occurs hl ht h.endsAt_le hkey hmem hpre hk htells,
      ?_⟩
    rw [hpending]
    exact h.counts
  | stop => exact ⟨.of_frame hk.frame, hk.size_eq, _, hpre, htells⟩

/-- A candidate that is left is confirmed, and its match is reported. -/
theorem processWanted_spec (hresume : resume ≤ cand.key)
    (hwanted : ∀ window ties, s.Wanted (c.on window ties) l id cand start) :
    ∃ c' step, s.Leads (s.processLiteral · l id cand) c c' step ∧
      s.Passes stream base past cand.key c' step := by
  have hplace := (hwanted .empty []).in_place
  rcases ha : l.automaton with _ | automaton
  · have hfirst : s.program.confirmedStart? stream l start = some start := by
      unfold Program.confirmedStart?
      rw [ha]
    obtain ⟨c', a, hreport, hpost⟩ := h.report_spec hs hl ht hplace hfirst
    refine ⟨c', .ofAction a, leads_of_eq fun window ties => ?_, hpost⟩
    exact (hwanted window ties).processLiteral_of_none ha (hreport window ties)
  · obtain ⟨l', hl', hends, -, hck⟩ := h.occurs.spec hs
    rw [hl, Option.some.injEq] at hl'
    subst hl'
    have hend := h.endsAt_le
    have hendsAt := Key.endsAt_le hresume
    simp only [Candidate.key] at hendsAt
    obtain ⟨v, hleads, hconfirms⟩ := confirm_spec (c := c) hs hl ha
      (show resume.endsAt ≤ start + l.bytes.size by omega) (by omega)
    cases v with
    | rejected =>
      refine ⟨c, .proceed, ?_,
        h.settled_of_none hs hl ht (Program.literalMatch?_of_unconfirmed hconfirms)⟩
      refine hleads.andThen fun window ties window' ties' hconfirm => ?_
      exact (hwanted window ties).processLiteral_of_rejected ha hconfirm
    | undecided =>
      obtain ⟨hfinal, hstop⟩ := hconfirms
      refine ⟨c, .defer cand.key, ?_, rfl, ⟨reported, states, h.point, h.counts⟩, hfinal, hend,
        ?_, ?_⟩
      · refine hleads.andThen fun window ties window' ties' hconfirm => ?_
        exact (hwanted window ties).processLiteral_of_undecided ha hconfirm
      · simp only [Candidate.key]
        omega
      · rw [hck]
        exact hs.sound.rank_lt (Array.getElem?_eq_some_iff.mp hl).1
    | confirmed first =>
      obtain ⟨c', a, hreport, hpost⟩ := h.report_spec hs hl ht hplace hconfirms
      refine ⟨c', .ofAction a, hleads.andThen fun window ties window' ties' hconfirm => ?_, hpost⟩
      exact (hwanted window ties).processLiteral_of_confirmed ha hconfirm (hreport window' ties')

theorem processLiteral_spec (hresume : resume ≤ cand.key) :
    ∃ c' step, s.Leads (s.processLiteral · l id cand) c c' step ∧
      s.Passes stream base past cand.key c' step := by
  obtain ⟨l', hl', hends, -, -⟩ := h.occurs.spec hs
  rw [hl, Option.some.injEq] at hl'
  subst hl'
  have hpattern := hs.sound.target_pattern l (Array.mem_of_getElem? hl) id ht
  have hstart : Word.sub cand.endsAt l.bytes.size = .ok start := by
    rw [Word.sub_eq_ok (by omega)]
    congr 1
    omega
  have hentry : ∀ window ties, s.entry (c.on window ties) id =
      .ok (s.program.entryAfter (s.program.kept reported) id.toNat) :=
    fun window ties => h.point.keeps.pattern_eq hs.sound hpattern
  by_cases hplace : l.anchored = true ∧ start ≠ 0
  · refine ⟨c, .proceed, leads_of_eq fun window ties => ?_,
      h.settled_of_none hs hl ht (Program.literalMatch?_of_misplaced hplace)⟩
    unfold processLiteral
    rw [hstart, Checked.ok_bind, if_pos hplace]
    rfl
  by_cases hredundant : isRedundant
      (s.program.entryAfter (s.program.kept reported) id.toNat) cand.endsAt = true
  · refine ⟨c, .proceed, leads_of_eq fun window ties => ?_,
      h.settled_of_redundant hs hl ht hplace hredundant⟩
    unfold processLiteral
    rw [hstart, Checked.ok_bind, if_neg hplace, hentry, Checked.ok_bind, if_pos hredundant]
    rfl
  · exact h.processWanted_spec hs hl ht hresume fun window ties =>
      ⟨hstart, hplace, _, hentry window ties, hredundant⟩

end Literals

theorem process_spec (hs : s.Over stream resume)
    (h : s.Turn stream base past c cand start reported states) (hresume : resume ≤ cand.key) :
    ∃ c' step, s.Leads (s.process · cand) c c' step ∧
      s.Passes stream base past cand.key c' step := by
  obtain ⟨l, hl, hends, hstands, hck⟩ := h.occurs.spec hs
  rcases ht : l.target with id | id
  · obtain ⟨c', step, hleads, hpost⟩ := h.processLiteral_spec hs hl ht hresume
    refine ⟨c', step, hleads.andThen fun window ties window' ties' hprocess => ?_, hpost⟩
    rw [← hprocess]
    simp only [process, hl, Checked.some?, Checked.ok_bind, ht]
  · -- The candidate is a byte that can start a run.
    obtain ⟨r, b, hget, rfl, hb, hrank⟩ := hs.sound.target_repeat _ l id hl ht
    have hone : (Program.trigger b id).bytes.size = 1 := rfl
    have hbyte : byteAt stream start = b := (standsAt_iff_byteAt.mp hstands).2 0 Nat.one_pos
    have hkey : cand.key = r.keyAt stream (start + 1) := by
      rw [hck, Repeat.keyAt, Nat.add_sub_cancel, hbyte, hrank]
      rfl
    have hend := h.endsAt_le
    have hendsAt := Key.endsAt_le hresume
    simp only [Candidate.key] at hendsAt
    have hreach : resume.endsAt ≤ start + (Program.trigger b id).bytes.size := by omega
    have hfloor := floor_le hs hl hreach
    have hpoint := h.point
    have hwaits := h.waits
    rw [hkey] at hpoint hwaits
    obtain ⟨c', states', hstart, hpoint', hcounts⟩ := startRun_spec hs hget hpoint h.counts
      (hwaits r (Array.mem_of_getElem? hget)) (by rwa [hbyte]) (by omega) hfloor
    rw [← hkey] at hpoint'
    refine ⟨c', .proceed, leads_of_eq fun window ties => ?_, reported, states', hpoint', hcounts⟩
    have hends' : cand.endsAt = start + 1 := hends
    simp only [process, hl, Checked.some?, Checked.ok_bind, Program.trigger, hends', hstart,
      Checked.pure_eq]

end Turn

/-- A candidate is visited: what is pending before it is reported, and then it is
processed or deferred. -/
theorem visit_spec (hs : s.Over stream resume) (ho : s.Occurs stream cand start)
    (h : s.Settled stream base past cand.key c) (hresume : resume ≤ cand.key)
    (hend : cand.endsAt ≤ s.input.stop) :
    ∃ c' step, s.Leads (s.visit · cand) c c' step ∧
      s.Passes stream base past cand.key c' step := by
  obtain ⟨reported, states, hpoint, hcounts⟩ := h
  obtain ⟨c₁, a, hflush, hflushed⟩ := flush_spec hs hpoint hcounts fun _ _ hlt => hlt
  cases a with
  | stop =>
    refine ⟨c₁, .stop, leads_of_eq fun window ties => ?_, hflushed⟩
    simp only [visit, hflush, Checked.ok_bind, Checked.pure_eq]
  | proceed =>
    obtain ⟨reported', states', hpoint', hcounts', hwaits⟩ := hflushed
    obtain ⟨waits, hwait, hdefer, hopen⟩ := waitsForOpenRun_spec hs hpoint' cand.key hend
    cases waits with
    | true =>
      obtain ⟨hfinal, hstop⟩ := hdefer rfl
      obtain ⟨l, hl, -, -, hck⟩ := ho.spec hs
      refine ⟨c₁, .defer cand.key, leads_of_eq fun window ties => ?_, rfl,
        ⟨reported', states', hpoint', hcounts'⟩, hfinal, hend, by omega, ?_⟩
      · simp only [visit, hflush, hwait, Checked.ok_bind, if_true, Checked.pure_eq]
      · rw [hck]
        exact hs.sound.rank_lt (Array.getElem?_eq_some_iff.mp hl).1
    | false =>
      have hturn : s.Turn stream base past c₁ cand start reported' states' :=
        ⟨ho, hpoint', hcounts', hend, hwaits, hopen rfl⟩
      obtain ⟨c', step, hleads, hpost⟩ := hturn.process_spec hs hresume
      refine ⟨c', step, hleads.andThen fun window ties window' ties' hprocess => ?_, hpost⟩
      rw [← hprocess]
      simp only [visit, hflush, hwait, Checked.ok_bind, Bool.false_eq_true, if_false]

/-! ## All candidates -/

/-- The candidates from a key on that end in the part of the stream that was
seen. -/
structure Remains (s : Scan) (stream : Bytes) (upto : Key) (cands : List Candidate) : Prop where
  sorted : cands.Pairwise fun a b => a.key < b.key
  mem_iff : ∀ cand, cand ∈ cands ↔
    (∃ start, s.Occurs stream cand start) ∧ upto ≤ cand.key ∧ cand.endsAt ≤ s.input.stop

namespace Remains

variable {cands : List Candidate}

theorem head (h : s.Remains stream upto (cand :: cands)) :
    ∃ start, s.Occurs stream cand start ∧ upto ≤ cand.key ∧ cand.endsAt ≤ s.input.stop ∧
      ∀ other start, s.Occurs stream other start → upto ≤ other.key → cand.key ≤ other.key := by
  obtain ⟨⟨start, ho⟩, hupto, hend⟩ := (h.mem_iff cand).mp List.mem_cons_self
  refine ⟨start, ho, hupto, hend, ?_⟩
  intro other start' ho' hupto'
  by_cases hle : other.endsAt ≤ s.input.stop
  · have hmem := (h.mem_iff other).mpr ⟨⟨start', ho'⟩, hupto', hle⟩
    rcases List.mem_cons.mp hmem with rfl | hin
    · exact le_refl _
    · exact le_of_lt (List.rel_of_pairwise_cons h.sorted hin)
  · exact le_of_lt (Key.lt_of_endsAt_lt (by simp only [Candidate.key]; omega))

theorem tail (h : s.Remains stream upto (cand :: cands)) :
    s.Remains stream cand.key.next cands := by
  obtain ⟨start, -, hupto, -, -⟩ := h.head
  refine ⟨(List.pairwise_cons.mp h.sorted).2, ?_⟩
  intro other
  rw [Key.next_le_iff]
  constructor
  · intro hin
    obtain ⟨ho, -, hend⟩ := (h.mem_iff other).mp (List.mem_cons_of_mem cand hin)
    exact ⟨ho, List.rel_of_pairwise_cons h.sorted hin, hend⟩
  · rintro ⟨ho, hlt, hend⟩
    have hmem := (h.mem_iff other).mpr ⟨ho, le_trans hupto (le_of_lt hlt), hend⟩
    refine (List.mem_cons.mp hmem).resolve_left ?_
    rintro rfl
    exact absurd hlt (lt_irrefl _)

theorem nil (h : s.Remains stream upto []) {other : Candidate} (ho : s.Occurs stream other start)
    (hupto : upto ≤ other.key) : (⟨s.input.stop + 1, 0⟩ : Key) ≤ other.key := by
  have hend : ¬other.endsAt ≤ s.input.stop := fun hle =>
    absurd ((h.mem_iff other).mpr ⟨⟨start, ho⟩, hupto, hle⟩) List.not_mem_nil
  simp only [Key.le_def, Candidate.key]
  omega

end Remains

/-- What visiting candidates leaves, when `rest` follow. -/
def Visits (s : Scan) (stream base : Bytes) (past : List Event) (resume : Key)
    (rest : List Candidate) (c : Core) : Step → Prop
  | .proceed => ∃ upto, resume ≤ upto ∧ upto ≤ ⟨s.input.stop + 1, 0⟩ ∧
      s.Settled stream base past upto c ∧ s.Remains stream upto rest
  | .defer key => s.Defers stream base past key c
  | .stop => s.Halted stream base past c

theorem Settled.advance {upto' : Key} (hs : s.Over stream resume)
    (h : s.Settled stream base past upto c) (hle : upto ≤ upto')
    (hupto : upto' ≤ ⟨s.input.stop + 1, 0⟩)
    (hnone : ∀ cand start, s.Occurs stream cand start → upto ≤ cand.key → upto' ≤ cand.key) :
    s.Settled stream base past upto' c := by
  obtain ⟨reported, states, hpoint, hcounts⟩ := h
  exact ⟨reported, states, hpoint.advance hs hle hupto hnone, hcounts⟩

theorem visitEach_spec (hs : s.Over stream resume) {cands rest : List Candidate}
    (h : s.Settled stream base past upto c) (hresume : resume ≤ upto)
    (hstop : upto ≤ ⟨s.input.stop + 1, 0⟩) (hrem : s.Remains stream upto (cands ++ rest)) :
    ∃ c' step, s.Leads (s.visitEach · cands) c c' step ∧
      s.Visits stream base past resume rest c' step := by
  induction cands generalizing c upto with
  | nil => exact ⟨c, .proceed, leads_of_eq fun _ _ => rfl, upto, hresume, hstop, h, hrem⟩
  | cons cand cands ih =>
    obtain ⟨start, ho, hupto, hend, hleast⟩ := hrem.head
    have hle : cand.key ≤ ⟨s.input.stop + 1, 0⟩ :=
      le_trans (le_of_lt (Key.lt_next _)) (next_le hend)
    obtain ⟨c₁, step, hleads, hpasses⟩ := visit_spec hs ho (h.advance hs hupto hle hleast)
      (le_trans hresume hupto) hend
    cases step with
    | proceed =>
      obtain ⟨c', step', hleads', hpost⟩ := ih hpasses
        (le_trans (le_trans hresume hupto) (le_of_lt (Key.lt_next _))) (next_le hend) hrem.tail
      refine ⟨c', step', ?_, hpost⟩
      refine hleads.followedBy hleads' fun window ties _ _ window' ties' hvisit hrest => ?_
      beta_reduce at hvisit hrest ⊢
      rw [visitEach, hvisit, Checked.ok_bind]
      exact hrest
    | defer key =>
      obtain ⟨rfl, hdefers⟩ := hpasses
      refine ⟨c₁, .defer cand.key, hleads.andThen fun window ties window' ties' hvisit => ?_,
        hdefers⟩
      beta_reduce at hvisit ⊢
      rw [visitEach, hvisit]
      rfl
    | stop =>
      refine ⟨c₁, .stop, hleads.andThen fun window ties window' ties' hvisit => ?_, hpasses⟩
      beta_reduce at hvisit ⊢
      rw [visitEach, hvisit]
      rfl

theorem visitGroups_spec (hs : s.Over stream resume) {groups : List (List Candidate)}
    (h : s.Settled stream base past upto c) (hresume : resume ≤ upto)
    (hstop : upto ≤ ⟨s.input.stop + 1, 0⟩) (hrem : s.Remains stream upto
      (groups.flatten.filter fun cand => decide (resume ≤ cand.key))) :
    ∃ c' step, s.Leads (s.visitGroups · resume (groups.map .ok)) c c' step ∧
      s.Visits stream base past resume [] c' step := by
  induction groups generalizing c upto with
  | nil =>
    refine ⟨c, .proceed, ?_, upto, hresume, hstop, h, hrem⟩
    intro window ties hwindow
    exact ⟨window, [], rfl, rfl⟩
  | cons group groups ih =>
    rw [List.flatten_cons, List.filter_append] at hrem
    obtain ⟨c₁, step, hleads, hvisits⟩ := visitEach_spec hs h hresume hstop hrem
    cases step with
    | proceed =>
      obtain ⟨upto', hresume', hstop', hsettled, hrest⟩ := hvisits
      obtain ⟨c', step', hleads', hpost⟩ := ih hsettled hresume' hstop' hrest
      refine ⟨c', step', ?_, hpost⟩
      intro window ties hwindow
      obtain ⟨window₁, ties₁, hsize₁, hvisit⟩ := hleads window group hwindow
      obtain ⟨window', ties', hsize', hnext⟩ := hleads' window₁ ties₁ (by omega)
      exact ⟨window', ties', by omega, (visitGroups_of_proceed hvisit).trans hnext⟩
    | defer key =>
      refine ⟨c₁, .defer key, ?_, hvisits⟩
      intro window ties hwindow
      obtain ⟨window', ties', hsize, hvisit⟩ := hleads window group hwindow
      exact ⟨window', ties', hsize, visitGroups_of_stopped (by simp) hvisit⟩
    | stop =>
      refine ⟨c₁, .stop, ?_, hvisits⟩
      intro window ties hwindow
      obtain ⟨window', ties', hsize, hvisit⟩ := hleads window group hwindow
      exact ⟨window', ties', hsize, visitGroups_of_stopped (by simp) hvisit⟩

/-! ## The end of a chunk -/

/-- A scan that goes on with the next chunk, from the key `resume` on. -/
structure Continues (s : Scan) (stream base : Bytes) (past : List Event) (c : Core) (resume : Key)
    (reported : List RawMatch) (states : Repeat → RunState) : Prop where
  same : s.program.SameHeader base c.region
  resume_eq : StreamState.resumeOf c.region = resume
  resume_le : resume ≤ ⟨s.input.stop + 1, 0⟩
  stop_lt : s.input.stop < resume.endsAt + max s.program.lookahead 1
  point : s.Point stream c.region past resume c reported states
  waits : s.Waits states resume

/-- What a scan of a chunk leaves. -/
def Finishes (s : Scan) (stream base : Bytes) (past : List Event) (c : Core) : Action → Prop
  | .proceed =>
    if s.isFinal then
      s.program.SameHeader base c.region ∧ c.region.size = s.program.layout.size ∧
        s.Tells past c (s.program.rawMatches stream) .proceed
    else ∃ resume reported states, s.Continues stream base past c resume reported states
  | .stop => s.Halted stream base past c

/-- When all bytes were seen and nothing is pending, all the matches were
reported. -/
theorem Point.complete (hs : s.Over stream resume)
    (h : s.Point stream base past ⟨s.input.stop + 1, 0⟩ c reported states)
    (hfinal : s.isFinal = true) (hwaits : s.Waits states .last) :
    reported = s.program.rawMatches stream := by
  have hsize := hs.size_lt
  have hstop := hs.final_eq hfinal
  have hlast : Key.last.endsAt = 0xFFFFFFFFFFFFFFFF := rfl
  have hall : ∀ m ∈ s.program.rawMatches stream, m ∈ reported := by
    intro m hm
    have hend := Program.Sound.endsAt_le hm
    rcases Program.mem_rawMatches.mp hm with hlit | hin
    · exact (h.literals m hlit).mpr (Key.lt_of_endsAt_lt (by simp only; omega))
    · obtain ⟨r, hr, first, stop, hrun, ha, rfl⟩ := Program.mem_runMatches.mp hin
      refine Decidable.byContradiction fun hnot => ?_
      rcases (h.found r hr).unreported hrun ha hnot with hp | ⟨hopen, -, -⟩ | hupto
      · have hle := Key.endsAt_le (hwaits r hr _ hp)
        have hle' := hrun.le_size
        simp only [Run.key, Repeat.runOf] at hle
        omega
      · rw [hfinal] at hopen
        cases hopen
      · have hle := Key.endsAt_le hupto
        have hlt := hrun.lt
        have hle' := hrun.le_size
        simp only [Repeat.keyAt] at hle
        omega
  obtain ⟨rest, hrest⟩ := h.ordered
  rcases rest with _ | ⟨m, rest⟩
  · rw [← hrest, List.append_nil]
  · have hsorted : (s.program.rawMatches stream).Pairwise fun a b => a.key < b.key :=
      hs.sound.pairwise_rawMatches
    rw [← hrest] at hsorted hall
    have hm := hall m (by simp)
    exact absurd ((List.pairwise_append.mp hsorted).2.2 m hm m List.mem_cons_self)
      (lt_irrefl _)

theorem Halted.of_sameHeader {mid : Bytes} (h : s.Halted stream mid past c)
    (hmid : s.program.SameHeader base mid) : s.Halted stream base past c :=
  ⟨hmid.trans h.same, h.size_eq, h.told⟩

theorem finish_final (hs : s.Over stream resume)
    (h : s.Settled stream base past ⟨s.input.stop + 1, 0⟩ c) (hfinal : s.isFinal = true) :
    ∃ c' a, s.Leads (s.finish · none) c c' a ∧ s.Finishes stream base past c' a := by
  obtain ⟨reported, states, hpoint, hcounts⟩ := h
  have hlimit : ∀ key : Key, key.endsAt ≤ s.input.stop → key < .last →
      key < ⟨s.input.stop + 1, 0⟩ :=
    fun key hend _ => Key.lt_of_endsAt_lt (by simp only; omega)
  obtain ⟨c', a, hflush, hflushed⟩ := flush_spec hs hpoint hcounts hlimit
  refine ⟨c', a, leads_of_eq fun window ties => ?_, ?_⟩
  · unfold finish
    rw [if_pos hfinal]
    exact hflush window ties
  · cases a with
    | proceed =>
      obtain ⟨reported', states', hpoint', hcounts', hwaits⟩ := hflushed
      obtain rfl := hpoint'.complete hs hfinal hwaits
      unfold Finishes
      rw [if_pos hfinal]
      exact ⟨.of_frame hpoint'.keeps.frame, hpoint'.keeps.size_eq, hpoint'.tells⟩
    | stop => exact hflushed

theorem horizon_eq (hs : s.Over stream resume) (deferred : Option Key) :
    s.horizon deferred = .ok (deferred.getD ⟨s.input.stop + 1, 0⟩) := by
  have hbound : Word.bound = 0x10000000000000000 := rfl
  have hsize := hs.size_lt
  have hend := hs.stop_le
  unfold horizon
  rw [hs.chunkEnd_eq, Checked.ok_bind, Word.add_eq_ok (by omega), Checked.ok_bind, Checked.pure_eq]

/-- The key from which the scan of the next chunk goes on can be written down. -/
theorem Point.setResume (hs : s.Over stream resume) {key : Key}
    (h : s.Point stream base past key c reported states) (hle : key ≤ ⟨s.input.stop + 1, 0⟩)
    (hrank : key.rank < 0x100000000) :
    ∃ region, StreamState.setResume c.region key = .ok region ∧
      s.program.SameHeader base region ∧ StreamState.resumeOf region = key ∧
      s.Point stream region past key { c with region } reported states := by
  have hbound : Word.bound = 0x10000000000000000 := rfl
  have hsize := hs.size_lt
  have hend := hs.stop_le
  have hendsAt := Key.endsAt_le hle
  have hpatterns := hs.sound.layout.patterns_le
  unfold Layout.patternAt Layout.historyAt at hpatterns
  have hfits : 32 ≤ c.region.size := by
    rw [h.keeps.size_eq]
    omega
  have hlast : key.endsAt < Word.bound := by
    simp only at hendsAt
    omega
  obtain ⟨region, hset, hagree, hresume⟩ := StreamState.setResume_spec hfits hlast hrank
  exact ⟨region, hset, (Program.SameHeader.of_frame h.keeps.frame).trans (.of_resume hagree),
    hresume, h.keeps.rebase hs.sound hagree (by omega), h.found, h.ordered, h.below, h.literals,
    h.tells.of_silent ⟨rfl, rfl⟩⟩

/-- If a chunk follows, the key from which the scan goes on is written down. -/
theorem finish_spec (hs : s.Over stream resume) {deferred : Option Key} {key : Key}
    (hkey : deferred.getD ⟨s.input.stop + 1, 0⟩ = key)
    (h : s.Settled stream base past key c) (hfinal : s.isFinal = false)
    (hle : key ≤ ⟨s.input.stop + 1, 0⟩)
    (hstop : s.input.stop < key.endsAt + max s.program.lookahead 1)
    (hrank : key.rank < 0x100000000) :
    ∃ c' a, s.Leads (s.finish · deferred) c c' a ∧ s.Finishes stream base past c' a := by
  obtain ⟨reported, states, hpoint, hcounts⟩ := h
  obtain ⟨region, hset, hsame, hresume, hpoint'⟩ := hpoint.setResume hs hle hrank
  have hlimit : ∀ k : Key, k.endsAt ≤ s.input.stop → k < key → k < key := fun _ _ hlt => hlt
  obtain ⟨c', a, hflush, hflushed⟩ := flush_spec hs hpoint' hcounts hlimit
  refine ⟨c', a, leads_of_eq fun window ties => ?_, ?_⟩
  · unfold finish
    simp only [Core.on] at hflush ⊢
    rw [hfinal, horizon_eq hs, hkey]
    simp only [Bool.false_eq_true, if_false, Checked.ok_bind, Progress.update, hset,
      Checked.pure_eq, hflush]
  · cases a with
    | proceed =>
      obtain ⟨reported', states', hpoint', hcounts', hwaits⟩ := hflushed
      have hframe := hpoint'.keeps.frame
      unfold Finishes
      rw [if_neg (by simp [hfinal])]
      refine ⟨key, reported', states', hsame.trans (.of_frame hframe), ?_, hle, hstop, ?_, hwaits⟩
      · rw [← hresume]
        unfold StreamState.resumeOf
        rw [hframe.readNumber_eq (by omega), hframe.readNumber_eq (by omega)]
      · exact ⟨hpoint'.keeps.rebase hs.sound (AgreeOutside.refl 0 0 _) (Nat.zero_le _),
          hpoint'.found, hpoint'.ordered, hpoint'.below, hpoint'.literals, hpoint'.tells⟩
    | stop => exact hflushed.of_sameHeader hsame

/-- A point from which a chunk is searched, with the candidates in groups. -/
structure Starts (s : Scan) (stream base : Bytes) (past : List Event) (resume : Key) (c : Core)
    (groups : List (List Candidate)) (reported : List RawMatch) (states : Repeat → RunState) :
    Prop where
  keeps : s.program.Keeps base c.region states (s.program.entryAfter (s.program.kept reported))
  counts : c.pending.Counts s.program.repeats.toList states
  found : ∀ r ∈ s.program.repeats,
    r.Found stream s.input.chunkStart false resume reported (states r)
  ordered : reported <+: s.program.rawMatches stream
  below : ∀ m ∈ reported, m.key < resume
  literals : ∀ m ∈ s.program.literalMatches stream, m ∈ reported ↔ m.key < resume
  tells : s.Tells past c reported .proceed
  remains : s.Remains stream resume
    (groups.flatten.filter fun cand => decide (resume ≤ cand.key))

theorem Over.resume_le_stop (hs : s.Over stream resume) : resume ≤ ⟨s.input.stop + 1, 0⟩ := by
  refine le_trans hs.resume_le ?_
  simp only [Key.le_def, Input.stop]
  omega

/-- The open runs are extended before the candidates are visited. -/
theorem Starts.exists_extended (hs : s.Over stream resume) {groups : List (List Candidate)}
    (h : s.Starts stream base past resume c groups reported states) :
    ∃ c₁, (∀ window ties, s.extendOpenRuns (c.on window ties) s.trackers =
        .ok (c₁.on window ties)) ∧ s.Settled stream base past resume c₁ := by
  obtain ⟨c₁, states₁, hextend, hsilent, hk₁, hcounts₁, hfound₁⟩ :=
    extendOpenRuns_spec hs h.keeps h.counts (.start hs.sound h.found)
  rw [← hs.trackers_eq] at hextend
  exact ⟨c₁, hextend, reported, states₁, ⟨hk₁, hfound₁, h.ordered, h.below, h.literals,
    h.tells.of_silent hsilent⟩, hcounts₁⟩

/-- What is left to do when all the candidates were visited. -/
theorem Visits.settled_at_end (hs : s.Over stream resume)
    (h : s.Visits stream base past resume [] c .proceed) :
    s.Settled stream base past ⟨s.input.stop + 1, 0⟩ c := by
  obtain ⟨upto, -, hupto, hsettled, hnil⟩ := h
  exact hsettled.advance hs hupto (le_refl _) fun cand start ho hle => hnil.nil ho hle

theorem Defers.key_le {key : Key} (h : s.Defers stream base past key c) :
    key ≤ ⟨s.input.stop + 1, 0⟩ := by
  have hend := h.endsAt_le
  simp only [Key.le_def]
  omega

/-- A chunk is searched from what was known before it. -/
theorem search_spec (hs : s.Over stream resume) {groups : List (List Candidate)}
    (h : s.Starts stream base past resume c groups reported states) :
    ∃ c' a, s.Leads (s.search · resume (groups.map .ok)) c c' a ∧
      s.Finishes stream base past c' a := by
  obtain ⟨c₁, hextend, hsettled⟩ := h.exists_extended hs
  obtain ⟨c₂, step, hleads, hvisits⟩ :=
    visitGroups_spec hs hsettled (le_refl resume) hs.resume_le_stop h.remains
  cases step with
  | stop =>
    refine ⟨c₂, .stop, hleads.andThen fun window ties window' ties' hvisit => ?_, hvisits⟩
    exact search_of_stop (hextend window ties) hvisit
  | defer key =>
    have hkey : (some key).getD (⟨s.input.stop + 1, 0⟩ : Key) = key := rfl
    obtain ⟨c', a, hleads', hpost⟩ := finish_spec hs hkey hvisits.settled hvisits.not_final
      hvisits.key_le hvisits.stop_lt hvisits.rank_lt
    refine ⟨c', a, ?_, hpost⟩
    refine hleads.followedBy hleads' fun window ties _ _ window' ties' hvisit hfinish => ?_
    exact (search_of_defer (hextend window ties) hvisit).trans hfinish
  | proceed =>
    have hsettled' := hvisits.settled_at_end hs
    have hend : ∃ c' a, s.Leads (s.finish · none) c₂ c' a ∧ s.Finishes stream base past c' a := by
      rcases hfinal : s.isFinal with _ | _
      · exact finish_spec hs rfl hsettled' hfinal (le_refl _)
          (show s.input.stop < s.input.stop + 1 + max s.program.lookahead 1 by omega)
          (show 0 < 0x100000000 by omega)
      · exact finish_final hs hsettled' hfinal
    obtain ⟨c', a, hleads', hpost⟩ := hend
    refine ⟨c', a, ?_, hpost⟩
    refine hleads.followedBy hleads' fun window ties _ _ window' ties' hvisit hfinish => ?_
    exact (search_of_proceed (hextend window ties) hvisit).trans hfinish

end StreamMatch.Scan
