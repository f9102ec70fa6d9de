-- The candidates of a chunk are processed, and the chunk is finished, without failing.
import StreamMatch.Proofs.Automaton.Total
import StreamMatch.Proofs.Scan.Confirm
import StreamMatch.Proofs.Scan.Safe
import StreamMatch.Proofs.Scan.Search

namespace StreamMatch.Scan

open Bytes Checked

variable {s : Scan} {stream base : Bytes} {pr : Progress} {states : Repeat → RunState}
  {entries : Nat → PatternEntry} {r : Repeat} {key : Key}

/-! ## Candidates -/

/-- A candidate whose bytes can be seen. -/
structure Visible (s : Scan) (stream : Bytes) (cand : Candidate) (start : Nat) : Prop where
  occurs : s.Occurs stream cand start
  floor_le : s.input.floor ≤ start
  endsAt_le : cand.endsAt ≤ s.input.stop

/-- A run that starts at a byte after the last run. -/
theorem startRun_of_new_safe (hs : s.Free stream) (h : s.Safe base pr states entries)
    (hr : r ∈ s.program.repeats) {first : Nat}
    (hb : r.allowed.contains (byteAt stream first) = true) (hfloor : s.input.floor ≤ first)
    (hlt : first < s.input.stop)
    (hwaits : ∀ m, (states r).pending = some m → first + 1 ≤ m.endsAt)
    (hnew : (states r).lastEnd.getD 0 ≤ first) :
    Succeeds (fun pr' => ∃ states', s.Safe base pr' states' entries) (do
      let n ← s.input.runLength first r.allowed
      let last ← Word.add first n
      let pr ← extendRun pr (s.program.layout.place r) n last
      s.settleRun pr (s.program.layout.place r) last (decide ((← s.input.chunkEnd) ≤ last))) := by
  have hfits := h.fitting r hr
  have hstop := hs.stop_lt
  have hbound : Word.bound = 0x10000000000000000 := rfl
  -- An open run would reach the end of the bytes seen, and a pending match the byte.
  have hclosed : (states r).length = 0 := by
    refine Nat.eq_zero_of_not_pos fun hopen => ?_
    rw [hfits.lastEnd_of_open hopen, Option.getD_some] at hnew
    omega
  have hpending : (states r).pending = none := by
    rcases hm : (states r).pending with _ | m
    · rfl
    · have hend := (hfits.pending m hm).2
      have hle := hwaits m hm
      omega
  obtain ⟨n, hn, hstops⟩ := Input.runLength_spec hs.isOver.shows r.allowed hfloor
    (Nat.le_of_lt hlt) hs.isOver.size_lt_sizeBound
  have hpos : 0 < n := by
    refine Nat.pos_of_ne_zero fun hzero => ?_
    have hout := hstops.outside (by rw [hzero]; exact hlt)
    rw [hzero, Nat.add_zero, hb] at hout
    cases hout
  have hle : first + n ≤ s.input.stop := hstops.stop_le
  have hext : s.Extends (states r) n (first + n) :=
    ⟨hpending, by omega, fun hopen => by omega, fun hzero => by omega, by omega, hle⟩
  refine .step hn (.step (Word.add_eq_ok (by omega)) ?_)
  simp only [hs.isOver.chunkEnd_eq, ok_bind]
  refine (settleRun_safe hs h.toHolds h.counts hr hext fun hreach => ?_).mono ?_
  · have hall := of_decide_eq_true hreach
    omega
  · rintro pr' ⟨st, hrests⟩
    exact ⟨_, hrests.holds, hrests.counts, h.fitting.update hrests.fits⟩

/-- A byte of the class of a repeat, at which every earlier match of the repeat was
reported, starts a run or belongs to the last one. -/
theorem startRun_safe (hs : s.Free stream) (h : s.Safe base pr states entries) {id : RepeatId}
    (hget : s.program.repeats[id.toNat]? = some r) {first : Nat}
    (hb : r.allowed.contains (byteAt stream first) = true) (hfloor : s.input.floor ≤ first)
    (hlt : first < s.input.stop)
    (hwaits : ∀ m, (states r).pending = some m → first + 1 ≤ m.endsAt) :
    Succeeds (fun pr' => ∃ states', s.Safe base pr' states' entries)
      (s.startRun pr id (first + 1)) := by
  have hr : r ∈ s.program.repeats := Array.mem_of_getElem? hget
  have hlastEnd := (h.keeps.tracks r hr).lastEnd_eq
  have htracker : s.program.layout.tracker r pr.region = .ok (s.program.layout.place r) :=
    Layout.tracker_eq_place hs.isOver.sound.layout hr h.keeps.size_eq
  have hnew := startRun_of_new_safe hs h hr hb hfloor hlt hwaits
  unfold startRun
  simp only [hget, some?, ok_bind, htracker, hlastEnd]
  rcases he : (states r).lastEnd with _ | e
  · rw [he] at hnew
    simp only [Bool.false_eq_true, if_false, Word.sub_eq_ok (show 1 ≤ first + 1 by omega),
      Nat.add_sub_cancel, ok_bind]
    exact hnew (Nat.zero_le first)
  · rw [he] at hnew
    by_cases hle : first + 1 ≤ e
    · simp only [decide_eq_true hle, if_true, pure_eq]
      exact .of_ok ⟨states, h⟩
    · simp only [decide_eq_false hle, Bool.false_eq_true, if_false,
        Word.sub_eq_ok (show 1 ≤ first + 1 by omega), Nat.add_sub_cancel, ok_bind]
      exact hnew (by simp only [Option.getD_some]; omega)

/-- Whether a candidate waits can be said, and none waits in the last chunk. -/
theorem waitsForOpenRun_safe (hs : s.Free stream) (pr : Progress) (key : Key) :
    Succeeds (fun waits => waits = true → s.isFinal = false) (s.waitsForOpenRun pr key) := by
  unfold waitsForOpenRun
  rw [hs.isOver.chunkEnd_eq, ok_bind]
  split
  · exact .of_ok fun h => by cases h
  · next hcond =>
    simp only [not_or, Bool.not_eq_true] at hcond
    obtain ⟨hfinal, -, hpos⟩ := hcond
    have hfloor := hs.isOver.floor_eq
    have hhistory := hs.isOver.historySize_pos
    have hinput : s.input.stop = s.input.chunkStart + s.input.data.size := rfl
    exact .step (hs.byteAt_eq (by omega) (Nat.le_refl _)) (.of_ok fun _ => hfinal)

/-- An automaton can be asked, and gives a verdict in the last chunk. -/
theorem confirm_safe (hs : s.Free stream) (h : s.Safe base pr states entries) {l : Literal}
    (hl : l ∈ s.program.literals) {id : AutomatonId} (ha : l.automaton = some id) {start : Nat}
    (hstart : start ≤ s.input.stop) :
    Succeeds (fun r => s.Safe base r.1 states entries ∧
      (r.2 = .undecided → s.isFinal = false)) (s.confirm pr id start) := by
  obtain ⟨a, hget, hcode, hbehind, hahead⟩ := hs.isOver.sound.automaton l hl id ha
  have hstop := hs.stop_lt
  have hwindow := h.window_le
  unfold Reach.lookbehind at hbehind
  unfold Reach.lookahead at hahead
  unfold Program.windowSize at hwindow
  have hlong := hs.isOver.sound.size_le l hl
  obtain ⟨w, hview, hconfirm⟩ := exists_view hs.isOver.shows hstop hget hcode hstart
  have hwfits : w.Fits := by
    have hle := hview.inView.hi_le
    unfold Window.stop at hle
    unfold Window.Fits
    omega
  obtain ⟨v, hv, hlacks⟩ := Window.followFrom_decides hcode hwfits (show start < _ by omega)
  obtain ⟨window, hsame, heq⟩ := hconfirm pr (by omega) hv
  refine ⟨_, heq, ⟨⟨h.phase_eq, ?_, h.keeps, h.entries_le⟩, h.counts, h.fitting⟩, ?_⟩
  · rw [hsame]
    exact h.window_le
  · exact fun hundecided => (hview.lacks (hlacks hundecided)).1

/-- A scan that goes on after a candidate, unless the candidate waits for the next
chunk. -/
structure Passed (s : Scan) (base : Bytes) (o : Progress × Step) : Prop where
  safe : ∃ states entries, s.Safe base o.1 states entries
  not_stop : o.2 ≠ .stop
  deferred : ∀ key, o.2 = .defer key →
    s.isFinal = false ∧ key.endsAt ≤ s.input.stop ∧ key.rank < 0x100000000

theorem Safe.passed (h : s.Safe base pr states entries) : s.Passed base (pr, .proceed) :=
  ⟨⟨states, entries, h⟩, by simp, fun key hkey => by cases hkey⟩

variable {cand : Candidate} {start : Nat}

theorem Safe.deferred (hs : s.Free stream) (h : s.Safe base pr states entries)
    (hcand : s.Visible stream cand start) (hfinal : s.isFinal = false) :
    s.Passed base (pr, .defer cand.key) := by
  refine ⟨⟨states, entries, h⟩, by simp, ?_⟩
  rintro key ⟨⟩
  obtain ⟨l, hl, -, -, hck⟩ := hcand.occurs.spec hs.isOver
  refine ⟨hfinal, hcand.endsAt_le, ?_⟩
  rw [hck]
  exact hs.isOver.sound.rank_lt (Array.getElem?_eq_some_iff.mp hl).1

theorem report_passed (hs : s.Free stream) (h : s.Safe base pr states entries)
    (hcand : s.Visible stream cand start) {id : PatternId}
    (hpattern : id.toNat < s.program.patterns.size) (first : Nat) :
    Succeeds (s.Passed base) (do
      let (pr, answer) ← s.report pr id first cand.endsAt
      return (pr, .ofAction answer)) := by
  refine (report_safe hs h.toHolds hpattern hcand.endsAt_le).bind ?_
  rintro ⟨pr', answer⟩ ⟨rfl, hpending, entries', hholds⟩
  simp only at hpending
  refine .of_ok (Safe.passed ⟨hholds, ?_, h.fitting⟩)
  rw [hpending]
  exact h.counts

theorem processLiteral_safe (hs : s.Free stream) (h : s.Safe base pr states entries)
    (hcand : s.Visible stream cand start) {l : Literal} {id : PatternId}
    (hl : s.program.literals[cand.literal.toNat]? = some l) (ht : l.target = .pattern id) :
    Succeeds (s.Passed base) (s.processLiteral pr l id cand) := by
  obtain ⟨l', hl', hends, -, -⟩ := hcand.occurs.spec hs.isOver
  rw [hl, Option.some.injEq] at hl'
  subst hl'
  have hmem : l ∈ s.program.literals := Array.mem_of_getElem? hl
  have hpattern := hs.isOver.sound.target_pattern l hmem id ht
  have hend := hcand.endsAt_le
  have hentry : s.entry pr id = .ok (entries id.toNat) :=
    h.keeps.pattern_eq hs.isOver.sound hpattern
  unfold processLiteral
  refine .step (Word.sub_eq_ok (show l.bytes.size ≤ cand.endsAt by omega)) ?_
  rw [show cand.endsAt - l.bytes.size = start by omega]
  split
  · exact .of_ok h.passed
  refine .step hentry ?_
  split
  · exact .of_ok h.passed
  rcases ha : l.automaton with _ | automaton
  · exact report_passed hs h hcand hpattern start
  · refine (confirm_safe hs h hmem ha (by omega)).bind ?_
    rintro ⟨pr', v⟩ ⟨hsafe, hverdict⟩
    cases v with
    | rejected => exact .of_ok hsafe.passed
    | undecided => exact .of_ok (hsafe.deferred hs hcand (hverdict rfl))
    | confirmed first => exact report_passed hs hsafe hcand hpattern first

theorem process_safe (hs : s.Free stream) (h : s.Safe base pr states entries)
    (hcand : s.Visible stream cand start) (hwaits : s.Waits states cand.key) :
    Succeeds (s.Passed base) (s.process pr cand) := by
  obtain ⟨l, hl, hends, hstands, -⟩ := hcand.occurs.spec hs.isOver
  unfold process
  refine .step (show some? s.program.literals[cand.literal.toNat]? .outOfBounds = .ok l by
    rw [hl]; rfl) ?_
  rcases ht : l.target with id | id
  · exact processLiteral_safe hs h hcand hl ht
  · -- The candidate is a byte that can start a run.
    obtain ⟨r, b, hget, rfl, hb, -⟩ := hs.isOver.sound.target_repeat _ l id hl ht
    have hone : (Program.trigger b id).bytes.size = 1 := rfl
    have hbyte : byteAt stream start = b := (standsAt_iff_byteAt.mp hstands).2 0 Nat.one_pos
    have hend := hcand.endsAt_le
    rw [hone] at hends
    rw [hends] at hend
    have hstart := startRun_safe hs h hget (by rwa [hbyte]) hcand.floor_le (by omega)
      fun m hm => by
        have hle := Key.endsAt_le (hwaits r (Array.mem_of_getElem? hget) m hm)
        simp only [Candidate.key, Run.key, hends] at hle
        exact hle
    simp only
    rw [hends]
    refine hstart.bind ?_
    rintro pr' ⟨states', hsafe⟩
    exact .of_ok hsafe.passed

theorem visit_safe (hs : s.Free stream) (h : s.Safe base pr states entries)
    (hcand : s.Visible stream cand start) : Succeeds (s.Passed base) (s.visit pr cand) := by
  unfold visit
  refine (flush_safe hs h cand.key).bind ?_
  rintro ⟨pr', action⟩ ⟨rfl, states', entries', hsafe, hwaits⟩
  refine (waitsForOpenRun_safe hs pr' cand.key).bind fun waits hwait => ?_
  split
  · next hw => exact .of_ok (hsafe.deferred hs hcand (hwait hw))
  · exact process_safe hs hsafe hcand hwaits

theorem visitEach_safe (hs : s.Free stream) {cands : List Candidate}
    (hcands : ∀ cand ∈ cands, ∃ start, s.Visible stream cand start)
    (h : s.Safe base pr states entries) : Succeeds (s.Passed base) (s.visitEach pr cands) := by
  induction cands generalizing pr states entries with
  | nil => exact .of_ok h.passed
  | cons cand rest ih =>
    obtain ⟨start, hcand⟩ := hcands cand List.mem_cons_self
    rw [visitEach]
    refine (visit_safe hs h hcand).bind ?_
    rintro ⟨pr', step⟩ hpassed
    cases step with
    | proceed =>
      obtain ⟨states', entries', hsafe⟩ := hpassed.safe
      exact ih (fun c hc => hcands c (List.mem_cons_of_mem cand hc)) hsafe
    | defer key => exact .of_ok hpassed
    | stop => exact absurd rfl hpassed.not_stop

theorem visitGroups_safe (hs : s.Free stream) (resume : Key) {groups : List (List Candidate)}
    (hgroups : ∀ cand ∈ groups.flatten, ∃ start, s.Visible stream cand start)
    (h : s.Safe base pr states entries) :
    Succeeds (s.Passed base) (s.visitGroups pr resume (groups.map .ok)) := by
  induction groups generalizing pr states entries with
  | nil => exact .of_ok (Safe.passed ⟨⟨h.phase_eq, h.window_le, h.keeps, h.entries_le⟩, h.counts, h.fitting⟩)
  | cons group rest ih =>
    have hgroup : ∀ cand ∈ group.filter fun c => decide (resume ≤ c.key),
        ∃ start, s.Visible stream cand start := fun cand hcand =>
      hgroups cand (List.mem_flatten_of_mem List.mem_cons_self (List.mem_of_mem_filter hcand))
    rw [List.map_cons, visitGroups, ok_bind]
    have hties : s.Safe base { pr with ties := group } states entries :=
      ⟨⟨h.phase_eq, h.window_le, h.keeps, h.entries_le⟩, h.counts, h.fitting⟩
    refine (visitEach_safe hs hgroup hties).bind ?_
    rintro ⟨pr', step⟩ hpassed
    cases step with
    | proceed =>
      obtain ⟨states', entries', hsafe⟩ := hpassed.safe
      refine ih (fun cand hcand => hgroups cand ?_) hsafe
      rw [List.flatten_cons]
      exact List.mem_append_right group hcand
    | defer key => exact .of_ok hpassed
    | stop => exact absurd rfl hpassed.not_stop

/-! ## The end of a chunk -/

/-- What a scan leaves: a state that another chunk can follow, if there is one. -/
structure Finished (s : Scan) (base : Bytes) (o : Progress × Action) : Prop where
  proceeds : o.2 = .proceed
  same : s.program.SameHeader base o.1.region
  size_eq : o.1.region.size = s.program.layout.size
  resume_le : s.isFinal = false → (StreamState.resumeOf o.1.region).endsAt ≤ s.input.stop + 1
  safe : ∃ states entries, s.Safe o.1.region o.1 states entries

theorem Safe.finished (hs : s.Free stream) {mid : Bytes} (h : s.Safe mid pr states entries)
    (hsame : s.program.SameHeader base mid) (hresume : s.isFinal = false →
      (StreamState.resumeOf mid).endsAt ≤ s.input.stop + 1) :
    s.Finished base (pr, .proceed) := by
  have hframe := h.keeps.frame
  refine ⟨rfl, hsame.trans (.of_frame hframe), h.keeps.size_eq, fun hfinal => ?_, states, entries,
    ⟨⟨h.phase_eq, h.window_le, ?_, h.entries_le⟩, h.counts, h.fitting⟩⟩
  · have hsameResume : StreamState.resumeOf pr.region = StreamState.resumeOf mid := by
      unfold StreamState.resumeOf
      rw [hframe.readNumber_eq (by omega), hframe.readNumber_eq (by omega)]
    rw [hsameResume]
    exact hresume hfinal
  · exact h.keeps.rebase hs.isOver.sound (AgreeOutside.refl 0 0 _) (Nat.zero_le _)

theorem flush_finished (hs : s.Free stream) {mid : Bytes} (h : s.Safe mid pr states entries)
    (hsame : s.program.SameHeader base mid) (hresume : s.isFinal = false →
      (StreamState.resumeOf mid).endsAt ≤ s.input.stop + 1) (limit : Key) :
    Succeeds (s.Finished base) (s.flush pr limit) := by
  refine (flush_safe hs h limit).mono ?_
  rintro ⟨pr', action⟩ ⟨rfl, states', entries', hsafe, -⟩
  exact hsafe.finished hs hsame hresume

/-- The key from which the next chunk goes on is written down. -/
theorem setResume_safe (hs : s.Free stream) (h : s.Safe base pr states entries)
    (hend : key.endsAt ≤ s.input.stop + 1) (hrank : key.rank < 0x100000000) :
    ∃ region', StreamState.setResume pr.region key = .ok region' ∧
      s.Safe region' { pr with region := region' } states entries ∧
      s.program.SameHeader base region' ∧
      (StreamState.resumeOf region').endsAt ≤ s.input.stop + 1 := by
  have hstop := hs.stop_lt
  have hbound : Word.bound = 0x10000000000000000 := rfl
  have hpatterns := hs.isOver.sound.layout.patterns_le
  have hsize := h.keeps.size_eq
  unfold Layout.patternAt Layout.historyAt at hpatterns
  obtain ⟨region', hset, hagree, hresume⟩ := StreamState.setResume_spec
    (show 32 ≤ pr.region.size by omega) (show key.endsAt < Word.bound by omega) hrank
  refine ⟨region', hset, ⟨⟨h.phase_eq, h.window_le, ?_, h.entries_le⟩, h.counts, h.fitting⟩,
    (Program.SameHeader.of_frame h.keeps.frame).trans (.of_resume hagree), by rwa [hresume]⟩
  exact h.keeps.rebase hs.isOver.sound hagree (by omega)

theorem finish_safe (hs : s.Free stream) (h : s.Safe base pr states entries)
    {deferred : Option Key} (hdeferred : ∀ key, deferred = some key →
      s.isFinal = false ∧ key.endsAt ≤ s.input.stop ∧ key.rank < 0x100000000) :
    Succeeds (s.Finished base) (s.finish pr deferred) := by
  have hstop := hs.stop_lt
  have hbound : Word.bound = 0x10000000000000000 := rfl
  unfold finish
  split
  · next hfinal =>
    have hnone : deferred = none := by
      rcases hd : deferred with _ | key
      · rfl
      · rw [(hdeferred key hd).1] at hfinal
        cases hfinal
    rw [hnone]
    exact flush_finished hs h ⟨rfl, fun _ _ => rfl⟩ (fun hopen => by simp [hfinal] at hopen) .last
  · next hfinal =>
    obtain ⟨key, hkey, hend, hrank⟩ : ∃ key, s.horizon deferred = .ok key ∧
        key.endsAt ≤ s.input.stop + 1 ∧ key.rank < 0x100000000 := by
      refine ⟨deferred.getD ⟨s.input.stop + 1, 0⟩, ?_, ?_⟩
      · unfold horizon
        rw [hs.isOver.chunkEnd_eq, ok_bind, Word.add_eq_ok (by omega)]
        rfl
      · rcases hd : deferred with _ | key
        · exact ⟨Nat.le_refl _, Nat.zero_lt_succ _⟩
        · obtain ⟨-, hend, hrank⟩ := hdeferred key hd
          exact ⟨Nat.le_succ_of_le hend, hrank⟩
    obtain ⟨region', hset, hsafe, hsame, hresume⟩ := setResume_safe hs h hend hrank
    refine .step hkey ?_
    simp only [Progress.update, hset, ok_bind, pure_eq]
    exact flush_finished hs hsafe hsame (fun _ => hresume) key

/-- A chunk is searched without failing from each state whose repeats fit the bytes
before it. -/
theorem search_safe (hs : s.Free stream) (h : s.Holds base pr states entries)
    (hcounts : pr.pending.Counts s.program.repeats.toList states)
    (hfits : ∀ r ∈ s.program.repeats, (states r).Fits s.input.chunkStart) (resume : Key)
    {groups : List (List Candidate)}
    (hgroups : ∀ cand ∈ groups.flatten, ∃ start, s.Visible stream cand start) :
    Succeeds (s.Finished base) (s.search pr resume (groups.map .ok)) := by
  have hextend := extendOpenRuns_safe hs h hcounts (.start hs.isOver.sound hfits)
  rw [← hs.isOver.trackers_eq] at hextend
  unfold search
  refine hextend.bind ?_
  rintro pr₁ ⟨states₁, hsafe₁⟩
  refine (visitGroups_safe hs resume hgroups hsafe₁).bind ?_
  rintro ⟨pr₂, step⟩ hpassed
  obtain ⟨states₂, entries₂, hsafe₂⟩ := hpassed.safe
  cases step with
  | proceed => exact finish_safe hs hsafe₂ fun key hkey => by cases hkey
  | defer key =>
    refine finish_safe hs hsafe₂ ?_
    rintro key' ⟨⟩
    exact hpassed.deferred key rfl
  | stop => exact absurd rfl hpassed.not_stop

end StreamMatch.Scan
