-- The flushes of a scan, as it makes them. The search of a chunk is done once more with a
-- record of its flushes. It does the same as without the record, and what it records are
-- just the flushes that were described for it.
import StreamMatch.Proofs.Scan.Exactness

namespace StreamMatch.Scan

variable (s : Scan)

/-! ## Searching with a record -/

/-- A computation that can record flushes, each by how far the scan got and by its key. -/
abbrev Recording := StateT (List (Progress × Key)) Checked

/-- Reports pending matches as `flush` does, and records it. -/
def flushRecording (pr : Progress) (limit : Key) : Recording (Progress × Action) := do
  modify (· ++ [(pr, limit)])
  s.flush pr limit

/-- `visit` with a record of its flushes. -/
def visitRecording (pr : Progress) (c : Candidate) : Recording (Progress × Step) := do
  match ← s.flushRecording pr c.key with
  | (pr, .stop) => return (pr, .stop)
  | (pr, .proceed) =>
    if ← s.waitsForOpenRun pr c.key then return (pr, .defer c.key)
    s.process pr c

/-- `visitEach` with a record of its flushes. -/
def visitEachRecording (pr : Progress) : List Candidate → Recording (Progress × Step)
  | [] => return (pr, .proceed)
  | c :: rest => do
    match ← s.visitRecording pr c with
    | (pr, .proceed) => visitEachRecording pr rest
    | stopped => return stopped

/-- `visitGroups` with a record of its flushes. -/
def visitGroupsRecording (pr : Progress) (resume : Key) :
    List (Checked (List Candidate)) → Recording (Progress × Step)
  | [] => return ({ pr with ties := [] }, .proceed)
  | found :: rest => do
    let group ← found
    let pr := { pr with ties := group }
    match ← s.visitEachRecording pr (group.filter fun c => decide (resume ≤ c.key)) with
    | (pr, .proceed) => visitGroupsRecording pr resume rest
    | stopped => return stopped

/-- `finish` with a record of its flushes. -/
def finishRecording (pr : Progress) (deferred : Option Key) : Recording (Progress × Action) := do
  if s.isFinal then
    Checked.require deferred.isNone .brokenCondition
    s.flushRecording pr .last
  else
    let limit ← s.horizon deferred
    let pr ← pr.update (StreamState.setResume · limit)
    s.flushRecording pr limit

/-- `search` with a record of its flushes. -/
def searchRecording (pr : Progress) (resume : Key) (groups : List (Checked (List Candidate))) :
    Recording (Progress × Action) := do
  let pr ← s.extendOpenRuns pr s.trackers
  match ← s.visitGroupsRecording pr resume groups with
  | (pr, .stop) => return (pr, .stop)
  | (pr, .defer key) => s.finishRecording pr (some key)
  | (pr, .proceed) => s.finishRecording pr none

variable {s} {α β : Type} {pr : Progress} {limit resume : Key}

/-! ## What is recorded -/

/-- A computation does what another does, and records just the given flushes besides. -/
def Records (x : Recording α) (y : Checked α) (flushes : Progress → Key → Prop) : Prop :=
  ∃ new, (∀ log, x.run log = y.map fun a => (a, log ++ new)) ∧
    ∀ a, y = .ok a → ∀ pr limit, (pr, limit) ∈ new ↔ flushes pr limit

namespace Records

variable {x : Recording α} {y : Checked α} {flushes flushes' : Progress → Key → Prop}

theorem congr (h : Records x y flushes)
    (hiff : ∀ a, y = .ok a → ∀ pr limit, flushes pr limit ↔ flushes' pr limit) :
    Records x y flushes' := by
  obtain ⟨new, hrun, hmem⟩ := h
  exact ⟨new, hrun, fun a ha pr limit => (hmem a ha pr limit).trans (hiff a ha pr limit)⟩

theorem pure (a : α) : Records (Pure.pure a) (.ok a) fun _ _ => False :=
  ⟨[], fun log => by rw [StateT.run_pure, List.append_nil]; rfl, fun _ _ _ _ => by simp⟩

theorem lift (y : Checked α) : Records (liftM y) y fun _ _ => False := by
  refine ⟨[], fun log => ?_, fun _ _ _ _ => by simp⟩
  rw [List.append_nil]
  cases y <;> rfl

/-- What the first step records, and then what the others do. -/
theorem bind {f : α → Recording β} {g : α → Checked β} (h : Records x y flushes)
    (next : α → Progress → Key → Prop) (hnext : ∀ a, y = .ok a → Records (f a) (g a) (next a)) :
    Records (x >>= f) (y >>= g) fun pr limit =>
      flushes pr limit ∨ ∃ a, y = .ok a ∧ next a pr limit := by
  obtain ⟨new, hrun, hmem⟩ := h
  rcases y with e | a
  · refine ⟨[], fun log => ?_, fun b hb => by cases hb⟩
    rw [StateT.run_bind, hrun]
    rfl
  · obtain ⟨new', hrun', hmem'⟩ := hnext a rfl
    refine ⟨new ++ new', fun log => ?_, fun b hb pr limit => ?_⟩
    · rw [StateT.run_bind, hrun, ← List.append_assoc]
      exact hrun' (log ++ new)
    · rw [List.mem_append, hmem a rfl, hmem' b hb]
      simp

/-- A first step that records nothing. -/
theorem lift_bind {f : α → Recording β} {g : α → Checked β}
    (hnext : ∀ a, y = .ok a → Records (f a) (g a) flushes) :
    Records (liftM y >>= f) (y >>= g) flushes := by
  refine ((lift y).bind _ hnext).congr fun b hb pr limit => ?_
  obtain ⟨a, ha, -⟩ := Checked.bind_eq_ok_iff.mp hb
  simp [ha]

/-- The other steps are taken only if the first one says so. -/
theorem bind_proceed {x : Recording (Progress × Step)} {y : Checked (Progress × Step)}
    {f : Progress → Recording (Progress × Step)} {g : Progress → Checked (Progress × Step)}
    {next : Progress → Progress → Key → Prop} (h : Records x y flushes)
    (hnext : ∀ mid, Records (f mid) (g mid) (next mid)) :
    Records
      (x >>= fun o => match o with
        | (pr, .proceed) => f pr
        | stopped => Pure.pure stopped)
      (y >>= fun o => match o with
        | (pr, .proceed) => g pr
        | stopped => .ok stopped)
      fun pr limit => flushes pr limit ∨ ∃ mid, y = .ok (mid, .proceed) ∧ next mid pr limit := by
  refine (h.bind (fun o pr limit => o.2 = .proceed ∧ next o.1 pr limit) ?_).congr (by simp)
  rintro ⟨mid, _ | _ | _⟩ -
  · exact (hnext mid).congr (by simp)
  · exact (pure _).congr (by simp)
  · exact (pure _).congr (by simp)

theorem exists_recorded {a : α} (h : Records x y flushes) (ha : y = .ok a) :
    ∃ new, x.run [] = .ok (a, new) ∧ ∀ pr limit, (pr, limit) ∈ new ↔ flushes pr limit := by
  obtain ⟨new, hrun, hmem⟩ := h
  refine ⟨new, ?_, hmem a ha⟩
  rw [hrun, ha]
  rfl

end Records

/-! ## The parts of a search -/

theorem records_flush (s : Scan) (pr : Progress) (limit : Key) :
    Records (s.flushRecording pr limit) (s.flush pr limit) fun pr' limit' =>
      pr' = pr ∧ limit' = limit := by
  refine ⟨[(pr, limit)], fun log => ?_, fun _ _ _ _ => by simp⟩
  rw [flushRecording, StateT.run_bind, StateT.run_modify]
  rcases s.flush pr limit with _ | o <;> rfl

theorem records_visit (s : Scan) (pr : Progress) (c : Candidate) :
    Records (s.visitRecording pr c) (s.visit pr c) fun pr' limit => pr' = pr ∧ limit = c.key := by
  refine ((s.records_flush pr c.key).bind (fun _ _ _ => False) ?_).congr (by simp)
  rintro ⟨mid, _ | _⟩ -
  · refine .lift_bind fun waits _ => ?_
    cases waits
    · exact .lift _
    · exact .pure _
  · exact .pure _

theorem visitFlushes_cons_iff {cand : Candidate} {rest : List Candidate} {pr' : Progress} :
    s.VisitFlushes pr (cand :: rest) pr' limit ↔ (pr' = pr ∧ limit = cand.key) ∨
      ∃ mid, s.visit pr cand = .ok (mid, .proceed) ∧ s.VisitFlushes mid rest pr' limit := by
  constructor
  · rintro (_ | ⟨hvisited, hflushes⟩)
    · exact .inl ⟨rfl, rfl⟩
    · exact .inr ⟨_, hvisited, hflushes⟩
  · rintro (⟨rfl, rfl⟩ | ⟨mid, hvisited, hflushes⟩)
    · exact .here _ cand rest
    · exact .later hvisited hflushes

theorem records_visitEach (s : Scan) (pr : Progress) (cands : List Candidate) :
    Records (s.visitEachRecording pr cands) (s.visitEach pr cands) (s.VisitFlushes pr cands) := by
  induction cands generalizing pr with
  | nil =>
    refine (Records.pure (pr, Step.proceed)).congr fun _ _ pr' limit => ⟨False.elim, ?_⟩
    rintro ⟨⟩
  | cons cand rest ih =>
    refine ((s.records_visit pr cand).bind_proceed ih).congr fun _ _ pr' limit => ?_
    exact visitFlushes_cons_iff.symm

theorem groupsFlush_cons_iff {group : List Candidate} {rest : List (Checked (List Candidate))}
    {pr' : Progress} :
    s.GroupsFlush resume pr (.ok group :: rest) pr' limit ↔
      s.VisitFlushes { pr with ties := group }
          (group.filter fun cand => decide (resume ≤ cand.key)) pr' limit ∨
        ∃ mid, s.visitEach { pr with ties := group }
            (group.filter fun cand => decide (resume ≤ cand.key)) = .ok (mid, .proceed) ∧
          s.GroupsFlush resume mid rest pr' limit := by
  constructor
  · rintro (hflushes | ⟨hvisited, hflushes⟩)
    · exact .inl hflushes
    · exact .inr ⟨_, hvisited, hflushes⟩
  · rintro (hflushes | ⟨mid, hvisited, hflushes⟩)
    · exact .here hflushes
    · exact .later hvisited hflushes

theorem records_visitGroups (s : Scan) (pr : Progress) (resume : Key)
    (groups : List (Checked (List Candidate))) :
    Records (s.visitGroupsRecording pr resume groups) (s.visitGroups pr resume groups)
      (s.GroupsFlush resume pr groups) := by
  induction groups generalizing pr with
  | nil =>
    refine (Records.pure ({ pr with ties := [] }, Step.proceed)).congr
      fun _ _ pr' limit => ⟨False.elim, ?_⟩
    rintro ⟨⟩
  | cons found rest ih =>
    refine .lift_bind fun group hgroup => ?_
    subst hgroup
    refine ((s.records_visitEach _ _).bind_proceed ih).congr fun _ _ pr' limit => ?_
    exact groupsFlush_cons_iff.symm

@[simp]
theorem Step.proceed_eq_ending {deferred : Option Key} :
    Step.proceed = .ending deferred ↔ deferred = none := by
  cases deferred <;> simp [Step.ending]

@[simp]
theorem Step.defer_eq_ending {key : Key} {deferred : Option Key} :
    Step.defer key = .ending deferred ↔ deferred = some key := by
  cases deferred <;> simp [Step.ending, eq_comm]

@[simp]
theorem Step.stop_ne_ending {deferred : Option Key} : Step.stop ≠ .ending deferred := by
  cases deferred <;> simp [Step.ending]

theorem records_finish (s : Scan) (pr : Progress) (deferred : Option Key) :
    Records (s.finishRecording pr deferred) (s.finish pr deferred)
      (s.FinishFlushes pr deferred) := by
  unfold finishRecording finish
  split
  case isTrue hfinal =>
    refine .lift_bind fun _ hnone => ?_
    rcases deferred with _ | key
    case some => cases hnone
    refine (s.records_flush pr .last).congr fun _ _ pr' limit => ⟨?_, ?_⟩
    · rintro ⟨rfl, rfl⟩
      exact .final hfinal
    · rintro (_ | ⟨hnot, -, -⟩)
      · exact ⟨rfl, rfl⟩
      · simp [hfinal] at hnot
  case isFalse hfinal =>
    refine .lift_bind fun limit hlimit => .lift_bind fun mid hresumes => ?_
    refine (s.records_flush mid limit).congr fun _ _ pr' limit' => ⟨?_, ?_⟩
    · rintro ⟨rfl, rfl⟩
      exact .horizon (by simpa using hfinal) hlimit hresumes
    · rintro (hfinal' | ⟨-, hlimit', hresumes'⟩)
      · exact absurd hfinal' hfinal
      · cases hlimit.symm.trans hlimit'
        cases hresumes.symm.trans hresumes'
        exact ⟨rfl, rfl⟩

theorem searchFlushes_iff {groups : List (Checked (List Candidate))} {mid pr' : Progress}
    (hextended : s.extendOpenRuns pr s.trackers = .ok mid) :
    s.SearchFlushes pr resume groups pr' limit ↔ s.GroupsFlush resume mid groups pr' limit ∨
      ∃ last deferred, s.visitGroups mid resume groups = .ok (last, .ending deferred) ∧
        s.FinishFlushes last deferred pr' limit := by
  constructor
  · rintro (⟨hextended', hflushes⟩ | ⟨hextended', hvisited, hflushes⟩)
    · cases hextended.symm.trans hextended'
      exact .inl hflushes
    · cases hextended.symm.trans hextended'
      exact .inr ⟨_, _, hvisited, hflushes⟩
  · rintro (hflushes | ⟨last, deferred, hvisited, hflushes⟩)
    · exact .visiting hextended hflushes
    · exact .finishing hextended hvisited hflushes

/-- The search with a record does what the search does, and what it records are the flushes
of the search. -/
theorem records_search (s : Scan) (pr : Progress) (resume : Key)
    (groups : List (Checked (List Candidate))) :
    Records (s.searchRecording pr resume groups) (s.search pr resume groups)
      (s.SearchFlushes pr resume groups) := by
  refine .lift_bind fun mid hextended => ?_
  refine ((s.records_visitGroups mid resume groups).bind (fun o pr' limit =>
    ∃ deferred, o.2 = .ending deferred ∧ s.FinishFlushes o.1 deferred pr' limit) ?_).congr ?_
  · rintro ⟨last, _ | key | _⟩ -
    · refine (s.records_finish last none).congr fun _ _ pr' limit => ?_
      simp
    · refine (s.records_finish last (some key)).congr fun _ _ pr' limit => ?_
      simp
    · exact (Records.pure _).congr fun _ _ pr' limit => by simp
  · intro _ _ pr' limit
    rw [searchFlushes_iff hextended]
    refine or_congr_right ⟨?_, ?_⟩
    · rintro ⟨⟨last, step⟩, hvisited, deferred, rfl, hflushes⟩
      exact ⟨last, deferred, hvisited, hflushes⟩
    · rintro ⟨last, deferred, hvisited, hflushes⟩
      exact ⟨_, hvisited, deferred, rfl, hflushes⟩

end StreamMatch.Scan
