-- Two scans of the same chunk, with two programs that differ in their settings. From
-- states that say the same, both do the same: each step that succeeds in both scans
-- has the same result in both, and leaves states that say the same.
import StreamMatch.Proofs.Scan.Chunk
import StreamMatch.Proofs.State.Twins

namespace StreamMatch

open Bytes Checked

/-- Two scans got equally far, in states that say the same. -/
inductive Progress.Twins (p : Program) (settings : Settings) : Progress → Progress → Prop where
  | of {a b : Bytes} (h : p.Twins settings a b) (window : Bytes) (ties : List Candidate)
      (pending : Pending) (phase : Phase) (events : Array Event) :
      Twins p settings ⟨a, window, ties, pending, phase, events⟩
        ⟨b, window, ties, pending, phase, events⟩

namespace Progress.Twins

variable {p : Program} {settings : Settings} {pr pr' : Progress}

theorem region (h : Twins p settings pr pr') : p.Twins settings pr.region pr'.region := by
  cases h with
  | of h => exact h

theorem phase_eq (h : Twins p settings pr pr') : pr'.phase = pr.phase := by
  cases h
  rfl

theorem update (h : Twins p settings pr pr') {f g : Bytes → Checked Bytes}
    (hfg : Agree (p.Twins settings) (f pr.region) (g pr'.region)) :
    Agree (Twins p settings) (pr.update f) (pr'.update g) := by
  cases h with
  | of h window ties pending phase events =>
    exact hfg.bind fun a b hab => Agree.of_ok (.of hab window ties pending phase events)

theorem updateWith {α : Type} (h : Twins p settings pr pr') {f g : Bytes → Checked (Bytes × α)}
    (hfg : Agree (WithSame (p.Twins settings)) (f pr.region) (g pr'.region)) :
    Agree (WithSame (Twins p settings)) (pr.updateWith f) (pr'.updateWith g) := by
  cases h with
  | of h window ties pending phase events =>
    refine hfg.bind ?_
    rintro ⟨a, x⟩ ⟨b, y⟩ ⟨hab, hxy⟩
    exact Agree.of_ok ⟨.of hab window ties pending phase events, hxy⟩

theorem setPending (h : Twins p settings pr pr') (f : Pending → Pending) :
    Twins p settings { pr with pending := f pr.pending }
      { pr' with pending := f pr'.pending } := by
  cases h with
  | of h window ties pending phase events => exact .of h window ties (f pending) phase events

theorem setTies (h : Twins p settings pr pr') (ties : List Candidate) :
    Twins p settings { pr with ties } { pr' with ties } := by
  cases h with
  | of h window _ pending phase events => exact .of h window ties pending phase events

theorem deliver (h : Twins p settings pr pr') (policy : Policy) (e : Event) :
    WithSame (Twins p settings) (pr.deliver policy e) (pr'.deliver policy e) := by
  cases h with
  | of h window ties pending _ events =>
    exact ⟨.of h window ties pending (.after (policy (events.push e))) (events.push e), rfl⟩

end Progress.Twins

namespace Scan

section

variable {p : Program} {settings : Settings} {input : Input} {isFinal : Bool} {policy : Policy}
  {pr pr' : Progress} {r : Repeat} {rs : List Repeat}

theorem trackers_withSettings :
    ((p.withSettings settings).scanOf input isFinal policy).trackers =
      p.repeats.toList.map (p.placeWith settings) := by
  have hrepeats : (p.withSettings settings).repeats.toList =
      p.repeats.toList.map (·.tracked settings) := Array.toList_map
  unfold Program.scanOf
  rw [hrepeats, List.map_map]
  rfl

variable (hp : p.Admits settings) (h : Progress.Twins p settings pr pr')
include hp h

/-! ## Runs -/

theorem closeRun_twins (hr : r ∈ p.repeats) (last : Nat) :
    Agree (Progress.Twins p settings)
      ((p.scanOf input isFinal policy).closeRun pr (p.layout.place r) last)
      (((p.withSettings settings).scanOf input isFinal policy).closeRun pr'
        (p.placeWith settings r) last) := by
  refine Agree.step fun n _ => Agree.step fun c _ => ?_
  refine (h.updateWith (h.region.close hp hr c)).bind ?_
  rintro ⟨pr, run⟩ ⟨pr', _⟩ ⟨h, rfl⟩
  cases run with
  | none => exact Agree.of_ok h
  | some run => exact Agree.of_ok (h.setPending (·.add run.key))

theorem extendRun_twins (hr : r ∈ p.repeats) {n last : Nat} (hle : n ≤ last) :
    Agree (Progress.Twins p settings) (extendRun pr (p.layout.place r) n last)
      (extendRun pr' (p.placeWith settings r) n last) :=
  h.update (h.region.extend hp hr hle)

theorem settleRun_twins (hr : r ∈ p.repeats) (last : Nat) (reachesEnd : Bool) :
    Agree (Progress.Twins p settings)
      ((p.scanOf input isFinal policy).settleRun pr (p.layout.place r) last reachesEnd)
      (((p.withSettings settings).scanOf input isFinal policy).settleRun pr'
        (p.placeWith settings r) last reachesEnd) := by
  refine Agree.ite (fun _ => Agree.of_ok h) fun _ => ?_
  exact closeRun_twins hp h hr last

theorem extendOpenRuns_twins (hrs : ∀ r ∈ rs, r ∈ p.repeats) :
    Agree (Progress.Twins p settings)
      ((p.scanOf input isFinal policy).extendOpenRuns pr (rs.map p.layout.place))
      (((p.withSettings settings).scanOf input isFinal policy).extendOpenRuns pr'
        (rs.map (p.placeWith settings))) := by
  induction rs generalizing pr pr' with
  | nil => exact Agree.of_ok h
  | cons r rest ih =>
    have hr := hrs r List.mem_cons_self
    have hrest := fun r' hr' => hrs r' (List.mem_cons_of_mem r hr')
    rw [List.map_cons, List.map_cons]
    unfold extendOpenRuns
    rw [h.region.isOpen_eq hp hr]
    refine Agree.ite (fun _ => ?_) fun _ => ih h hrest
    refine Agree.step fun n _ => Agree.step fun last hlast => ?_
    have hle := Word.le_of_add_eq_ok hlast
    refine (extendRun_twins hp h hr hle).bind fun pr pr' h => ?_
    exact (settleRun_twins hp h hr last _).bind fun pr pr' h => ih h hrest

theorem startRun_twins (id : RepeatId) (last : Nat) :
    Agree (Progress.Twins p settings) ((p.scanOf input isFinal policy).startRun pr id last)
      (((p.withSettings settings).scanOf input isFinal policy).startRun pr' id last) := by
  have hget : (p.withSettings settings).repeats[id.toNat]? =
      p.repeats[id.toNat]?.map (·.tracked settings) := Array.getElem?_map ..
  unfold startRun Program.scanOf
  simp only [hget]
  rcases hid : p.repeats[id.toNat]? with _ | r
  · exact Agree.of_error _ _
  · have hr := Array.mem_of_getElem? hid
    have ht := Layout.tracker_eq_place hp.sound.layout hr h.region.size_left
    have ht' : (p.withSettings settings).layout.tracker (r.tracked settings) pr'.region =
        .ok (p.placeWith settings r) := Layout.tracker_eq_place hp.soundWith.layout
      (Program.mem_withSettings settings hr) h.region.size_right
    -- The end of the last run is the same in both, so the run is new for both or for none.
    simp only [Option.map_some, Checked.some?, Checked.ok_bind, ht, ht', h.region.runEnd?_eq hr]
    refine Agree.ite (fun _ => Agree.of_ok h) fun _ => ?_
    refine Agree.step fun first _ => Agree.step fun n _ => Agree.step fun stop hstop => ?_
    have hle := Word.le_of_add_eq_ok hstop
    refine (extendRun_twins hp h hr hle).bind fun pr pr' h => Agree.step fun chunkEnd _ => ?_
    exact settleRun_twins hp h hr stop _

theorem hasOpenRunBefore_twins (hrs : ∀ r ∈ rs, r ∈ p.repeats) (key : Key) (last : Nat)
    (c : UInt8) :
    hasOpenRunBefore pr'.region key last c (rs.map (p.placeWith settings)) =
      hasOpenRunBefore pr.region key last c (rs.map p.layout.place) := by
  unfold hasOpenRunBefore
  rw [Bool.eq_iff_iff, List.any_map, List.any_map, List.any_eq_true, List.any_eq_true]
  refine exists_congr fun r => and_congr_right fun hr => ?_
  simp only [Function.comp_apply, Bool.and_eq_true, decide_eq_true_iff]
  rw [h.region.isOpen_eq hp (hrs r hr), p.rankOf_placeWith settings r c]

theorem waitsForOpenRun_twins (key : Key) :
    ((p.withSettings settings).scanOf input isFinal policy).waitsForOpenRun pr' key =
      (p.scanOf input isFinal policy).waitsForOpenRun pr key := by
  have hbefore := hasOpenRunBefore_twins hp h (fun r hr => Array.mem_toList_iff.mp hr) key
  unfold waitsForOpenRun
  rw [trackers_withSettings]
  simp only [hbefore]
  rfl

/-! ## Reports -/

theorem entry_twins {pattern : PatternId} (hi : pattern.toNat < p.patterns.size) :
    ((p.withSettings settings).scanOf input isFinal policy).entry pr' pattern =
      (p.scanOf input isFinal policy).entry pr pattern := h.region.pattern_eq hp hi

theorem report_twins (pattern : PatternId) (start last : Nat) :
    Agree (WithSame (Progress.Twins p settings))
      ((p.scanOf input isFinal policy).report pr pattern start last)
      (((p.withSettings settings).scanOf input isFinal policy).report pr' pattern start last) := by
  rw [report, report, h.phase_eq]
  refine Agree.step fun _ _ => Agree.step fun flags hflags => ?_
  have hi : pattern.toNat < p.patterns.size :=
    (Array.getElem?_eq_some_iff.mp (Checked.of_some? hflags)).1
  rw [entry_twins hp h hi]
  refine Agree.step fun e _ => Agree.ite (fun _ => Agree.of_ok ⟨h, rfl⟩) fun _ => ?_
  refine (h.update (h.region.setPattern hp hi _)).bind fun pr pr' h => ?_
  exact Agree.of_ok (h.deliver policy _)

/-! ## Pending matches -/

omit hp in
theorem firstPending_twins (hrs : ∀ r ∈ rs, r ∈ p.repeats) (best : Option (Key × Repeat))
    (hbest : ∀ e ∈ best, e.2 ∈ p.repeats) :
    Agree (fun x y => ∃ best : Option (Key × Repeat), (∀ e ∈ best, e.2 ∈ p.repeats) ∧
        x = best.map (fun e => (e.1, p.layout.place e.2)) ∧
        y = best.map fun e => (e.1, p.placeWith settings e.2))
      (firstPending pr.region (best.map fun e => (e.1, p.layout.place e.2))
        (rs.map p.layout.place))
      (firstPending pr'.region (best.map fun e => (e.1, p.placeWith settings e.2))
        (rs.map (p.placeWith settings))) := by
  induction rs generalizing best with
  | nil => exact Agree.of_ok ⟨best, hbest, rfl, rfl⟩
  | cons r rest ih =>
    have hr := hrs r List.mem_cons_self
    have hrest := fun r' hr' => hrs r' (List.mem_cons_of_mem r hr')
    rw [List.map_cons, List.map_cons]
    unfold firstPending
    rw [h.region.pending?_eq hr]
    refine Agree.step fun run _ => ?_
    cases run with
    | none => exact ih hrest best hbest
    | some run =>
      rcases best with _ | ⟨key, r'⟩
      · exact ih hrest (some (run.key, r)) (by simpa using hr)
      · simp only [Option.map_some]
        by_cases hlt : run.key < key
        · rw [decide_eq_true hlt, if_pos rfl, if_pos rfl]
          exact ih hrest (some (run.key, r)) (by simpa using hr)
        · rw [decide_eq_false hlt, if_neg (by simp), if_neg (by simp)]
          exact ih hrest (some (key, r')) hbest

theorem flushSome_twins (limit : Key) (count : Nat) :
    Agree (WithSame (Progress.Twins p settings))
      ((p.scanOf input isFinal policy).flushSome pr limit count)
      (((p.withSettings settings).scanOf input isFinal policy).flushSome pr' limit count) := by
  -- On the matches that may still be pending: each turn takes one out of both states.
  induction count generalizing pr pr' with
  | zero => exact Agree.of_ok ⟨h.setPending fun _ => .none, rfl⟩
  | succ count ih =>
    unfold flushSome
    rw [trackers_withSettings]
    refine (firstPending_twins h (fun r hr => Array.mem_toList_iff.mp hr) none
      (by simp)).bind ?_
    rintro x y ⟨best, hbest, rfl, rfl⟩
    rcases best with _ | ⟨key, r⟩
    · exact Agree.of_ok ⟨h.setPending fun _ => ⟨count + 1, .last⟩, rfl⟩
    · have hr : r ∈ p.repeats := hbest (key, r) rfl
      refine Agree.ite (fun _ => Agree.of_ok ⟨h.setPending fun _ => ⟨count + 1, key⟩, rfl⟩)
        fun _ => ?_
      refine (h.updateWith (h.region.take hp hr)).bind ?_
      rintro ⟨pr, run⟩ ⟨pr', _⟩ ⟨h, rfl⟩
      cases run with
      | none => exact ih h
      | some run =>
        refine (report_twins hp h _ _ _).bind ?_
        rintro ⟨pr, answer⟩ ⟨pr', _⟩ ⟨h, rfl⟩
        cases answer with
        | proceed => exact ih h
        | stop => exact Agree.of_ok ⟨h.setPending fun _ => ⟨count, key⟩, rfl⟩

theorem flush_twins (limit : Key) :
    Agree (WithSame (Progress.Twins p settings))
      ((p.scanOf input isFinal policy).flush pr limit)
      (((p.withSettings settings).scanOf input isFinal policy).flush pr' limit) := by
  cases h with
  | of h window ties pending phase events =>
    -- What is pending was counted alike, so both flush or none does.
    have htwins := Progress.Twins.of h window ties pending phase events
    exact Agree.ite (fun _ => Agree.of_ok ⟨htwins, rfl⟩) fun _ => flushSome_twins hp htwins limit _

/-! ## Candidates -/

omit hp in
theorem confirm_twins (id : AutomatonId) (literalStart : Nat) :
    Agree (WithSame (Progress.Twins p settings))
      ((p.scanOf input isFinal policy).confirm pr id literalStart)
      (((p.withSettings settings).scanOf input isFinal policy).confirm pr' id literalStart) := by
  cases h with
  | of h window ties pending phase events =>
    refine Agree.step fun automaton _ => ?_
    refine Agree.step fun range _ => Agree.step fun len _ => Agree.step fun bytes _ => ?_
    refine Agree.step fun buffer _ => Agree.step fun chunkEnd _ => Agree.step fun verdict _ => ?_
    exact Agree.of_ok ⟨.of h buffer ties pending phase events, rfl⟩

theorem processLiteral_twins (l : Literal) {pattern : PatternId}
    (hi : pattern.toNat < p.patterns.size) (c : Candidate) :
    Agree (WithSame (Progress.Twins p settings))
      ((p.scanOf input isFinal policy).processLiteral pr l pattern c)
      (((p.withSettings settings).scanOf input isFinal policy).processLiteral pr' l pattern c) := by
  refine Agree.step fun start _ => Agree.ite (fun _ => Agree.of_ok ⟨h, rfl⟩) fun _ => ?_
  rw [entry_twins hp h hi]
  refine Agree.step fun e _ => Agree.ite (fun _ => Agree.of_ok ⟨h, rfl⟩) fun _ => ?_
  cases l.automaton with
  | none =>
    refine (report_twins hp h _ _ _).bind ?_
    rintro ⟨pr, answer⟩ ⟨pr', _⟩ ⟨h, rfl⟩
    exact Agree.of_ok ⟨h, rfl⟩
  | some id =>
    refine (confirm_twins h id start).bind ?_
    rintro ⟨pr, verdict⟩ ⟨pr', _⟩ ⟨h, rfl⟩
    cases verdict with
    | rejected => exact Agree.of_ok ⟨h, rfl⟩
    | undecided => exact Agree.of_ok ⟨h, rfl⟩
    | confirmed first =>
      refine (report_twins hp h _ _ _).bind ?_
      rintro ⟨pr, answer⟩ ⟨pr', _⟩ ⟨h, rfl⟩
      exact Agree.of_ok ⟨h, rfl⟩

theorem process_twins (c : Candidate) :
    Agree (WithSame (Progress.Twins p settings))
      ((p.scanOf input isFinal policy).process pr c)
      (((p.withSettings settings).scanOf input isFinal policy).process pr' c) := by
  refine Agree.step fun l hl => ?_
  have hmem := Array.mem_of_getElem? (Checked.of_some? hl)
  cases htarget : l.target with
  | pattern id => exact processLiteral_twins hp h l (hp.sound.target_pattern l hmem id htarget) c
  | repetition id =>
    refine (startRun_twins hp h id c.endsAt).bind fun pr pr' h => ?_
    exact Agree.of_ok ⟨h, rfl⟩

theorem visit_twins (c : Candidate) :
    Agree (WithSame (Progress.Twins p settings)) ((p.scanOf input isFinal policy).visit pr c)
      (((p.withSettings settings).scanOf input isFinal policy).visit pr' c) := by
  refine (flush_twins hp h c.key).bind ?_
  rintro ⟨pr, answer⟩ ⟨pr', _⟩ ⟨h, rfl⟩
  cases answer with
  | stop => exact Agree.of_ok ⟨h, rfl⟩
  | proceed =>
    simp only [waitsForOpenRun_twins hp h]
    refine Agree.step fun waits _ => Agree.ite (fun _ => Agree.of_ok ⟨h, rfl⟩) fun _ => ?_
    exact process_twins hp h c

theorem visitEach_twins (cs : List Candidate) :
    Agree (WithSame (Progress.Twins p settings)) ((p.scanOf input isFinal policy).visitEach pr cs)
      (((p.withSettings settings).scanOf input isFinal policy).visitEach pr' cs) := by
  induction cs generalizing pr pr' with
  | nil => exact Agree.of_ok ⟨h, rfl⟩
  | cons c rest ih =>
    refine (visit_twins hp h c).bind ?_
    rintro ⟨pr, step⟩ ⟨pr', _⟩ ⟨h, rfl⟩
    cases step with
    | proceed => exact ih h
    | defer key => exact Agree.of_ok ⟨h, rfl⟩
    | stop => exact Agree.of_ok ⟨h, rfl⟩

theorem visitGroups_twins (resume : Key) (groups : List (Checked (List Candidate))) :
    Agree (WithSame (Progress.Twins p settings))
      ((p.scanOf input isFinal policy).visitGroups pr resume groups)
      (((p.withSettings settings).scanOf input isFinal policy).visitGroups pr' resume groups) := by
  induction groups generalizing pr pr' with
  | nil => exact Agree.of_ok ⟨h.setTies [], rfl⟩
  | cons found rest ih =>
    refine Agree.step fun group _ => ?_
    refine (visitEach_twins hp (h.setTies group) _).bind ?_
    rintro ⟨pr, step⟩ ⟨pr', _⟩ ⟨h, rfl⟩
    cases step with
    | proceed => exact ih h
    | defer key => exact Agree.of_ok ⟨h, rfl⟩
    | stop => exact Agree.of_ok ⟨h, rfl⟩

/-! ## Chunks -/

theorem finish_twins (deferred : Option Key) :
    Agree (WithSame (Progress.Twins p settings))
      ((p.scanOf input isFinal policy).finish pr deferred)
      (((p.withSettings settings).scanOf input isFinal policy).finish pr' deferred) := by
  refine Agree.ite (fun _ => ?_) fun _ => ?_
  · exact Agree.step fun _ _ => flush_twins hp h .last
  · refine Agree.step fun limit _ => ?_
    exact (h.update (h.region.setResume hp limit)).bind fun pr pr' h => flush_twins hp h limit

theorem search_twins (resume : Key) (groups : List (Checked (List Candidate))) :
    Agree (WithSame (Progress.Twins p settings))
      ((p.scanOf input isFinal policy).search pr resume groups)
      (((p.withSettings settings).scanOf input isFinal policy).search pr' resume groups) := by
  unfold search
  rw [trackers_withSettings]
  refine (extendOpenRuns_twins hp h fun r hr => Array.mem_toList_iff.mp hr).bind fun pr pr' h => ?_
  refine (visitGroups_twins hp h resume groups).bind ?_
  rintro ⟨pr, step⟩ ⟨pr', _⟩ ⟨h, rfl⟩
  cases step with
  | proceed => exact finish_twins hp h none
  | defer key => exact finish_twins hp h (some key)
  | stop => exact Agree.of_ok ⟨h, rfl⟩

omit h in
theorem closeChunk_twins {a b : Bytes} (h : p.Twins settings a b) (answer : Action) :
    Agree (fun x y => x.1 = y.1 ∧ p.Twins settings x.2 y.2)
      ((p.scanOf input isFinal policy).closeChunk a answer)
      (((p.withSettings settings).scanOf input isFinal policy).closeChunk b answer) := by
  cases answer with
  | stop => exact (h.setTerminated hp).bind fun a b h => Agree.of_ok ⟨rfl, h⟩
  | proceed =>
    refine (h.setHistory hp _ _).bind fun a b h => Agree.step fun chunkEnd _ => ?_
    exact (h.setOffset hp chunkEnd).bind fun a b h => Agree.of_ok ⟨rfl, h⟩

end

end Scan

/-! ## States between two chunks -/

namespace Program

variable {p : Program} {settings : Settings} {stream a b data : Bytes} {n : Nat}
  {past past' : List Event} {resume resume' : Key} {reported reported' : List RawMatch}
  {states states' : Repeat → RunState}

namespace Twins

variable (hp : p.Admits settings) (ht : p.Twins settings a b)
  (h : p.Ready stream n past a resume reported states)
  (h' : (p.withSettings settings).Ready stream n past' b resume' reported' states')

include ht h h' in
theorem resume_eq : resume' = resume := by
  rw [← h.resume_eq, ← h'.resume_eq, ht.resumeOf_eq]

include hp ht h in
theorem history_eq : StreamState.historyOf b = StreamState.historyOf a := by
  refine ht.historyOf_eq hp ?_
  rw [h.historyLength_eq]
  exact Nat.min_le_left _ _

include ht h h' in
/-- The same repeats have a pending match. -/
theorem countP_pending_eq :
    ((p.withSettings settings).repeats.toList.countP fun r => (states' r).pending.isSome) =
      p.repeats.toList.countP fun r => (states r).pending.isSome := by
  have hrepeats : (p.withSettings settings).repeats.toList =
      p.repeats.toList.map (·.tracked settings) := Array.toList_map
  rw [hrepeats, List.countP_map]
  refine List.countP_congr fun r hr => ?_
  have hr := Array.mem_toList_iff.mp hr
  have hpending := (h.keeps.tracks r hr).pending_eq
  have hpending' : (p.placeWith settings r).pending? b =
      .ok (states' (r.tracked settings)).pending :=
    (h'.keeps.tracks _ (mem_withSettings settings hr)).pending_eq
  rw [ht.pending?_eq hr, hpending, Except.ok.injEq] at hpending'
  simp only [Function.comp_apply, hpending']

end Twins

/-- A chunk is scanned from states that say the same. -/
theorem scanChunk_twins (hp : p.Admits settings) (ht : p.Twins settings a b)
    (hsize : stream.size < 0x4000000000000000)
    (h : p.Ready stream n past a resume reported states)
    (h' : (p.withSettings settings).Ready stream n past' b resume' reported' states')
    (hdata : PartOf stream n data) (isFinal : Bool) (policy : Policy) {buffers : Buffers}
    (hfit : buffers.Fit p) :
    Agree (fun x y => x.report = y.report ∧ p.Twins settings x.region y.region)
      (p.scanChunk a buffers data isFinal policy)
      ((p.withSettings settings).scanChunk b buffers data isFinal policy) := by
  have hfit' : buffers.Fit (p.withSettings settings) := ⟨hfit.seam_le, hfit.window_le, hfit.ties_le⟩
  obtain ⟨seam, -, hscan⟩ := h.scanChunk_eq hp.sound hsize hdata isFinal policy hfit
  obtain ⟨seam', -, hscan'⟩ := h'.scanChunk_eq hp.soundWith hsize hdata isFinal policy hfit'
  obtain rfl := ht.resume_eq h h'
  have hhistory := ht.history_eq hp h
  have hinput : h'.inputOf hp.soundWith data = h.inputOf hp.sound data := by
    unfold Ready.inputOf
    simp only [hhistory]
  rw [hscan, hscan', hinput, hhistory]
  have htwins : Progress.Twins p settings (h.coreOf.on buffers.window buffers.ties)
      (h'.coreOf.on buffers.window buffers.ties) := by
    unfold Ready.coreOf Core.on
    rw [ht.countP_pending_eq h h']
    exact .of ht _ _ _ _ _
  refine (Scan.search_twins hp htwins resume' _).bind ?_
  rintro ⟨pr, answer⟩ ⟨pr', _⟩ ⟨hpr, rfl⟩
  cases hpr with
  | of hpr window ties pending phase events =>
    refine (Scan.closeChunk_twins hp hpr answer).bind ?_
    rintro ⟨status, a'⟩ ⟨_, b'⟩ ⟨rfl, hab⟩
    exact Agree.of_ok ⟨rfl, hab⟩

end Program

end StreamMatch
