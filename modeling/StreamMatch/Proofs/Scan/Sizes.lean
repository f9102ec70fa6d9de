-- A scan writes inside of the bytes that it is given: the state of the stream and
-- the buffers keep their sizes, whatever the state says.
import StreamMatch.Proofs.Checked
import StreamMatch.Scan

namespace StreamMatch

open Bytes Checked

/-! ## Bytes -/

/-- Other bytes of the same size. -/
def Bytes.SameSize (a b : Bytes) : Prop := b.size = a.size

namespace Bytes

theorem writeWithin_size (bytes : Bytes) (pos width n : Nat) :
    Ensures (SameSize bytes) (bytes.writeWithin pos width n) :=
  Ensures.step fun _ _ => Ensures.of_ok (writeNumber_size ..)

theorem overwriteWithin_size (bytes : Bytes) (pos : Nat) (source : Bytes) :
    Ensures (SameSize bytes) (bytes.overwriteWithin pos source) := by
  rw [overwriteWithin_eq_replaceWithin]
  exact Ensures.step fun _ _ => Ensures.of_ok (replace_size ..)

end Bytes

/-! ## States of repeats -/

namespace Tracker

variable (t : Tracker) (s : Bytes)

theorem push_size (offset : Nat) : Ensures (SameSize s) (t.push s offset) := by
  refine Ensures.step fun _ _ => Ensures.of_ok ?_
  simp [SameSize]

theorem pushRange_size (offset n : Nat) : Ensures (SameSize s) (t.pushRange s offset n) := by
  induction n generalizing s offset with
  | zero => exact Ensures.of_ok rfl
  | succ n ih =>
    refine (t.push_size s offset).bind fun s' hs b hb => ?_
    exact (ih s' (offset + 1) b hb).trans hs

theorem countSteps_size (n last : Nat) : Ensures (SameSize s) (t.countSteps s n last) := by
  unfold countSteps
  cases t.rep.tracking with
  | bitmap => exact Ensures.of_ok (writeNumber_size ..)
  | counter => exact Ensures.of_ok (writeNumber_size ..)
  | ring => exact Ensures.step fun kept _ => t.pushRange_size s _ _

theorem extend_size (n last : Nat) : Ensures (SameSize s) (t.extend s n last) := by
  have hrest : Ensures (SameSize s) (do
      let s ← t.countSteps s n last
      return s.writeNumber t.base 8 (← Word.add last 1)) := by
    refine (t.countSteps_size s n last).bind fun s' hs => Ensures.step fun next _ => ?_
    exact Ensures.of_ok ((writeNumber_size ..).trans hs)
  refine Ensures.ite (fun _ => Ensures.of_ok rfl) fun _ => Ensures.ite (fun _ => ?_) fun _ => hrest
  cases t.runEnd? s with
  | none => exact Ensures.of_error _ _
  | some runEnd => exact Ensures.step fun next _ => Ensures.step fun _ _ => hrest

theorem close_size (rank : Nat) : Ensures (fun r => s.SameSize r.1) (t.close s rank) := by
  refine Ensures.ite (fun _ => Ensures.of_ok rfl) fun _ => ?_
  cases t.runEnd? s with
  | none => exact Ensures.of_ok rfl
  | some last =>
    refine Ensures.step fun satisfied _ => Ensures.ite (fun _ => ?_) fun _ =>
      Ensures.of_ok (clear_size ..)
    refine Ensures.step fun pending _ => Ensures.step fun _ _ => Ensures.step fun start _ => ?_
    exact Ensures.of_ok (by simp [SameSize])

theorem take_size : Ensures (fun r => s.SameSize r.1) (t.take s) :=
  Ensures.step fun _ _ => Ensures.of_ok (clear_size ..)

end Tracker

/-! ## Progress -/

/-- Another point of a scan, with the same sizes of the state and of the window
buffer. -/
structure Progress.SameSizes (a b : Progress) : Prop where
  region : a.region.SameSize b.region
  window : a.window.SameSize b.window

namespace Progress.SameSizes

variable {pr₀ pr : Progress}

theorem refl (pr : Progress) : pr.SameSizes pr := ⟨rfl, rfl⟩

theorem update (h : pr₀.SameSizes pr) {f : Bytes → Checked Bytes}
    (hf : Ensures (SameSize pr.region) (f pr.region)) :
    Ensures pr₀.SameSizes (pr.update f) :=
  hf.bind fun _ hs => Ensures.of_ok ⟨hs.trans h.region, h.window⟩

theorem updateWith (h : pr₀.SameSizes pr) {α : Type} {f : Bytes → Checked (Bytes × α)}
    (hf : Ensures (fun r => pr.region.SameSize r.1) (f pr.region)) :
    Ensures (fun r => pr₀.SameSizes r.1) (pr.updateWith f) :=
  hf.bind fun _ hs => Ensures.of_ok ⟨hs.trans h.region, h.window⟩

end Progress.SameSizes

/-! ## Scans -/

namespace Scan

variable {s : Scan} {pr₀ pr : Progress} (h : pr₀.SameSizes pr)
include h

theorem closeRun_sizes (t : Tracker) (last : Nat) :
    Ensures pr₀.SameSizes (s.closeRun pr t last) := by
  refine Ensures.step fun n _ => Ensures.step fun b _ => ?_
  refine (h.updateWith (t.close_size pr.region _)).bind fun ⟨pr, run⟩ h => ?_
  cases run with
  | some run => exact Ensures.of_ok ⟨h.region, h.window⟩
  | none => exact Ensures.of_ok h

theorem extendRun_sizes (t : Tracker) (n last : Nat) :
    Ensures pr₀.SameSizes (extendRun pr t n last) :=
  h.update (t.extend_size pr.region n last)

theorem settleRun_sizes (t : Tracker) (last : Nat) (reachesEnd : Bool) :
    Ensures pr₀.SameSizes (s.settleRun pr t last reachesEnd) :=
  Ensures.ite (fun _ => Ensures.of_ok h) fun _ => closeRun_sizes h t last

theorem extendOpenRuns_sizes (ts : List Tracker) :
    Ensures pr₀.SameSizes (s.extendOpenRuns pr ts) := by
  induction ts generalizing pr with
  | nil => exact Ensures.of_ok h
  | cons t rest ih =>
    refine Ensures.ite (fun _ => ?_) fun _ => ih h
    refine Ensures.step fun n _ => Ensures.step fun last _ => ?_
    refine (extendRun_sizes h t n last).bind fun pr h => ?_
    exact (settleRun_sizes h t last _).bind fun pr h => ih h

theorem startRun_sizes (id : RepeatId) (last : Nat) :
    Ensures pr₀.SameSizes (s.startRun pr id last) := by
  refine Ensures.step fun r _ => Ensures.step fun t _ => ?_
  refine Ensures.ite (fun _ => Ensures.of_ok h) fun _ => ?_
  refine Ensures.step fun first _ => Ensures.step fun n _ => Ensures.step fun last _ => ?_
  refine (extendRun_sizes h t n last).bind fun pr h => Ensures.step fun chunkEnd _ => ?_
  exact settleRun_sizes h t last _

theorem report_sizes (pattern : PatternId) (start last : Nat) :
    Ensures (fun r => pr₀.SameSizes r.1) (s.report pr pattern start last) := by
  refine Ensures.step fun _ _ => Ensures.step fun pattern _ => Ensures.step fun e _ => ?_
  refine Ensures.ite (fun _ => Ensures.of_ok h) fun _ => ?_
  refine (h.update (Ensures.step fun n _ => writeWithin_size _ _ _ _)).bind fun pr h => ?_
  exact Ensures.of_ok ⟨h.region, h.window⟩

theorem flushSome_sizes (limit : Key) (count : Nat) :
    Ensures (fun r => pr₀.SameSizes r.1) (s.flushSome pr limit count) := by
  induction count generalizing pr with
  | zero => exact Ensures.of_ok ⟨h.region, h.window⟩
  | succ count ih =>
    refine Ensures.step fun found _ => ?_
    rcases found with _ | ⟨key, t⟩
    · exact Ensures.of_ok ⟨h.region, h.window⟩
    · refine Ensures.ite (fun _ => Ensures.of_ok ⟨h.region, h.window⟩) fun _ => ?_
      refine (h.updateWith (t.take_size pr.region)).bind fun ⟨pr, run⟩ h => ?_
      cases run with
      | none => exact ih h
      | some run =>
        refine (report_sizes h t.rep.pattern run.startsAt run.endsAt).bind fun ⟨pr, answer⟩ h => ?_
        cases answer with
        | proceed => exact ih h
        | stop => exact Ensures.of_ok ⟨h.region, h.window⟩

theorem flush_sizes (limit : Key) : Ensures (fun r => pr₀.SameSizes r.1) (s.flush pr limit) :=
  Ensures.ite (fun _ => Ensures.of_ok h) fun _ => flushSome_sizes h limit _

theorem confirm_sizes (id : AutomatonId) (literalStart : Nat) :
    Ensures (fun r => pr₀.SameSizes r.1) (s.confirm pr id literalStart) := by
  refine Ensures.step fun automaton _ => Ensures.step fun range _ => ?_
  refine Ensures.step fun len _ => Ensures.step fun bytes _ => ?_
  refine (overwriteWithin_size pr.window 0 bytes).bind fun window hs => ?_
  refine Ensures.step fun chunkEnd _ => Ensures.step fun verdict _ => ?_
  exact Ensures.of_ok ⟨h.region, hs.trans h.window⟩

theorem processLiteral_sizes (l : Literal) (pattern : PatternId) (c : Candidate) :
    Ensures (fun r => pr₀.SameSizes r.1) (s.processLiteral pr l pattern c) := by
  refine Ensures.step fun start _ => Ensures.ite (fun _ => Ensures.of_ok h) fun _ => ?_
  refine Ensures.step fun e _ => Ensures.ite (fun _ => Ensures.of_ok h) fun _ => ?_
  cases l.automaton with
  | none => exact (report_sizes h pattern start c.endsAt).bind fun r h => Ensures.of_ok h
  | some id =>
    refine (confirm_sizes h id start).bind fun ⟨pr, verdict⟩ h => ?_
    cases verdict with
    | rejected => exact Ensures.of_ok h
    | undecided => exact Ensures.of_ok h
    | confirmed first =>
      exact (report_sizes h pattern first c.endsAt).bind fun r h => Ensures.of_ok h

theorem process_sizes (c : Candidate) : Ensures (fun r => pr₀.SameSizes r.1) (s.process pr c) := by
  refine Ensures.step fun l _ => ?_
  cases l.target with
  | pattern id => exact processLiteral_sizes h l id c
  | repetition id => exact (startRun_sizes h id c.endsAt).bind fun pr h => Ensures.of_ok h

theorem visit_sizes (c : Candidate) : Ensures (fun r => pr₀.SameSizes r.1) (s.visit pr c) := by
  refine (flush_sizes h c.key).bind fun ⟨pr, answer⟩ h => ?_
  cases answer with
  | stop => exact Ensures.of_ok h
  | proceed =>
    refine Ensures.step fun waits _ => Ensures.ite (fun _ => Ensures.of_ok h) fun _ => ?_
    exact process_sizes h c

theorem visitEach_sizes (cs : List Candidate) :
    Ensures (fun r => pr₀.SameSizes r.1) (s.visitEach pr cs) := by
  induction cs generalizing pr with
  | nil => exact Ensures.of_ok h
  | cons c rest ih =>
    refine (visit_sizes h c).bind fun ⟨pr, step⟩ h => ?_
    cases step with
    | proceed => exact ih h
    | defer key => exact Ensures.of_ok h
    | stop => exact Ensures.of_ok h

theorem visitGroups_sizes (resume : Key) (groups : List (Checked (List Candidate))) :
    Ensures (fun r => pr₀.SameSizes r.1) (s.visitGroups pr resume groups) := by
  induction groups generalizing pr with
  | nil => exact Ensures.of_ok ⟨h.region, h.window⟩
  | cons found rest ih =>
    refine Ensures.step fun group _ => ?_
    have hties : pr₀.SameSizes { pr with ties := group } := ⟨h.region, h.window⟩
    refine (visitEach_sizes hties _).bind fun ⟨pr, step⟩ h => ?_
    cases step with
    | proceed => exact ih h
    | defer key => exact Ensures.of_ok h
    | stop => exact Ensures.of_ok h

theorem finish_sizes (deferred : Option Key) :
    Ensures (fun r => pr₀.SameSizes r.1) (s.finish pr deferred) := by
  refine Ensures.ite (fun _ => Ensures.step fun _ _ => flush_sizes h .last) fun _ => ?_
  refine Ensures.step fun limit _ => ?_
  have hresume : Ensures (SameSize pr.region) (StreamState.setResume pr.region limit) := by
    refine (writeWithin_size pr.region 16 8 _).bind fun region hs b hb => ?_
    exact (writeWithin_size region 24 4 _ b hb).trans hs
  exact (h.update hresume).bind fun pr h => flush_sizes h limit

theorem search_sizes (resume : Key) (groups : List (Checked (List Candidate))) :
    Ensures (fun r => pr₀.SameSizes r.1) (s.search pr resume groups) := by
  refine (extendOpenRuns_sizes h s.trackers).bind fun pr h => ?_
  refine (visitGroups_sizes h resume groups).bind fun ⟨pr, step⟩ h => ?_
  cases step with
  | proceed => exact finish_sizes h none
  | defer key => exact finish_sizes h (some key)
  | stop => exact Ensures.of_ok h

omit h in
theorem closeChunk_size (region : Bytes) (answer : Action) :
    Ensures (fun r => region.SameSize r.2) (s.closeChunk region answer) := by
  cases answer with
  | stop =>
    refine Ensures.bind (P := SameSize region) ?_ fun region' hs => Ensures.of_ok hs
    exact Ensures.step fun n _ => writeWithin_size _ _ _ _
  | proceed =>
    have hhistory : Ensures (SameSize region) (StreamState.setHistory s.program.layout region
        s.input.history s.input.data) := by
      refine (overwriteWithin_size region _ _).bind fun region' hs b hb => ?_
      exact (writeWithin_size region' 30 2 _ b hb).trans hs
    refine hhistory.bind fun region' hs => Ensures.step fun chunkEnd _ => ?_
    exact (writeWithin_size region' 8 8 chunkEnd).bind fun b hb => Ensures.of_ok (hb.trans hs)

end Scan

theorem Program.prepare_sizes (p : Program) (region : Bytes) (buffers : Buffers) (data : Bytes)
    (isFinal : Bool) (policy : Policy) :
    Ensures (fun r => region.SameSize r.progress.region ∧
        buffers.window.SameSize r.progress.window ∧ buffers.seam.SameSize r.seam)
      (p.prepare region buffers data isFinal policy) := by
  refine Ensures.step fun history _ => ?_
  refine (overwriteWithin_size buffers.seam 0 _).bind fun seam hseam => ?_
  refine Ensures.step fun resume _ => Ensures.step fun chunkStart _ => ?_
  refine Ensures.step fun trackers _ => Ensures.step fun pending _ => ?_
  refine Ensures.step fun input _ => Ensures.step fun _ _ => Ensures.step fun groups _ => ?_
  exact Ensures.of_ok ⟨rfl, rfl, hseam⟩

/-- The scan of a chunk keeps the sizes of the state and of the buffers. -/
theorem Program.scanChunk_sizes (p : Program) (region : Bytes) (buffers : Buffers) (data : Bytes)
    (isFinal : Bool) (policy : Policy) :
    Ensures (fun r => region.SameSize r.region ∧ buffers.seam.SameSize r.buffers.seam ∧
        buffers.window.SameSize r.buffers.window ∧ r.buffers.tieCapacity = buffers.tieCapacity)
      (p.scanChunk region buffers data isFinal policy) := by
  unfold scanChunk
  refine Ensures.step fun valid _ => ?_
  cases valid with
  | error e => exact Ensures.of_ok ⟨rfl, rfl, rfl, rfl⟩
  | ok _ =>
    refine Ensures.step fun terminated _ => Ensures.ite
      (fun _ => Ensures.of_ok ⟨rfl, rfl, rfl, rfl⟩) fun _ => ?_
    refine (p.prepare_sizes region buffers data isFinal policy).bind ?_
    rintro ⟨s, pr, resume, groups, seam⟩ ⟨hregion, hwindow, hseam⟩
    refine (Scan.search_sizes (.refl pr) resume groups).bind fun ⟨pr', action⟩ h => ?_
    refine (Scan.closeChunk_size pr'.region action).bind fun r hr => ?_
    exact Ensures.of_ok ⟨hr.trans (h.region.trans hregion), hseam, h.window.trans hwindow, rfl⟩

end StreamMatch
