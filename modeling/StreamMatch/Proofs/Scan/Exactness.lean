-- Flushing is exact. At each flush of a scan the number of pending matches is known, and
-- just those before the key are handed over, in the order of their keys. These flushes are
-- the ones before each candidate, and the one at the end of the chunk.
import StreamMatch.Proofs.Scan.Search

namespace StreamMatch.Scan

open Bytes

variable {s : Scan} {stream base : Bytes} {resume upto limit : Key} {past : List Event} {c : Core}
  {reported : List RawMatch} {states : Repeat → RunState} {r : Repeat} {m : Run}

/-- The pending matches before a key, in the order of their keys, with the places of the
states that have them. -/
structure DueIn (s : Scan) (region : Bytes) (limit : Key) (due : List (Tracker × Run)) : Prop where
  sorted : due.Pairwise fun a b => a.2.key < b.2.key
  mem_iff : ∀ t m, (t, m) ∈ due ↔
    t ∈ s.trackers ∧ t.pending? region = .ok (some m) ∧ m.key < limit

/-- A flush is right to count on the number of pending matches. It hands over those before the
key in the order of their keys, all of them unless the scan is stopped. What it did not hand
over stays as it is, and the number of pending matches is known again. -/
structure FlushesExactly (s : Scan) (pr : Progress) (limit : Key) : Prop where
  counted : countPending pr.region s.trackers = .ok pr.pending.count
  hands_over : ∃ due handed pr' a, s.DueIn pr.region limit due ∧
    s.flushHanding pr limit = .ok (handed, pr', a) ∧ s.flush pr limit = .ok (pr', a) ∧
    handed <+: due ∧ (a = .proceed → handed = due) ∧
    countPending pr'.region s.trackers = .ok pr'.pending.count ∧
    ∀ t ∈ s.trackers, ∀ m, t.pending? pr'.region = .ok (some m) ↔
      t.pending? pr.region = .ok (some m) ∧ (t, m) ∉ handed

/-- The keys of matches of different repeats are different. -/
theorem Point.distinct (hs : s.Over stream resume)
    (h : s.Point stream base past upto c reported states) : s.Distinct states := by
  intro r hr r' hr' m m' hm hm' hkey
  obtain ⟨first, stop, hf, -, -, rfl, -⟩ := ((h.found r hr).pending_iff m).mp hm
  obtain ⟨first', stop', hf', -, -, rfl, -⟩ := ((h.found r' hr').pending_iff m').mp hm'
  exact (hs.sound.matchOf_inj hr hr' hf.isRun hf'.isRun hkey).1

theorem mem_placed {handed : List (Repeat × Run)} :
    (s.program.layout.place r, m) ∈ s.placed handed ↔ (r, m) ∈ handed := by
  simp only [placed, List.mem_map, Prod.mk.injEq, Prod.exists]
  constructor
  · rintro ⟨r', m', hin, hplace, rfl⟩
    obtain rfl : r' = r := congrArg Tracker.rep hplace
    exact hin
  · exact fun hin => ⟨r, m, hin, rfl, rfl⟩

theorem Over.mem_trackers (hs : s.Over stream resume) {t : Tracker} :
    t ∈ s.trackers ↔ ∃ r ∈ s.program.repeats, s.program.layout.place r = t := by
  rw [hs.trackers_eq, List.mem_map]
  simp only [Array.mem_toList_iff]

/-- The number of pending matches is known if it is counted right. -/
theorem Over.countPending_eq {region : Bytes} {pending : Pending} (hs : s.Over stream resume)
    (htracks : ∀ r ∈ s.program.repeats, (s.program.layout.place r).Tracks region (states r))
    (hcounts : pending.Counts s.program.repeats.toList states) :
    countPending region s.trackers = .ok pending.count := by
  rw [hs.trackers_eq, hcounts.count_eq]
  exact Scan.countPending_eq fun r hr => htracks r (Array.mem_toList_iff.mp hr)

/-- Each flush at a point of a scan is exact. -/
theorem Point.flush_is_exact (hs : s.Over stream resume)
    (h : s.Point stream base past upto c reported states)
    (hcounts : c.pending.Counts s.program.repeats.toList states)
    (hlimit : ∀ key : Key, key.endsAt ≤ s.input.stop → key < limit → key < upto)
    (window : Bytes) (ties : List Candidate) : s.FlushesExactly (c.on window ties) limit := by
  have htracks := h.keeps.tracks
  obtain ⟨handed, states', c', a, hflush, hhanded⟩ := flushHanding_spec hs h hcounts hlimit
  obtain ⟨due, hdue, hprefix, hall⟩ :=
    hhanded.drains.exists_due (h.distinct hs) hs.sound.nodup_repeats
  refine ⟨hs.countPending_eq htracks hcounts, s.placed due, s.placed handed, c'.on window ties, a,
    ⟨?_, ?_⟩, hflush window ties, ?_, ?_, ?_,
    hs.countPending_eq hhanded.tracks hhanded.counts, ?_⟩
  · exact List.pairwise_map.mpr hdue.sorted
  · intro t m
    rw [hs.mem_trackers]
    constructor
    · intro hin
      obtain ⟨⟨r, m'⟩, hmem, heq⟩ := List.mem_map.mp hin
      cases heq
      obtain ⟨hr, hm, hlt⟩ := (hdue.mem_iff _ _).mp hmem
      exact ⟨⟨r, hr, rfl⟩, (htracks r hr).pending?_eq_some_iff.mpr hm, hlt⟩
    · rintro ⟨⟨r, hr, rfl⟩, hm, hlt⟩
      have hm' := (htracks r hr).pending?_eq_some_iff.mp hm
      exact mem_placed.mpr ((hdue.mem_iff r m).mpr ⟨hr, hm', hlt⟩)
  · rw [flush_eq_map, hflush]
    rfl
  · exact hprefix.map _
  · rintro rfl
    exact congrArg s.placed (hall hhanded.flushed.2)
  · intro t ht m
    obtain ⟨r, hr, rfl⟩ := hs.mem_trackers.mp ht
    have hbefore := (htracks r hr).pending?_eq_some_iff (m := m)
    have hafter := (hhanded.tracks r hr).pending?_eq_some_iff (m := m)
    rw [mem_placed]
    exact hafter.trans (hhanded.drains.pending_iff.trans (and_congr_left' hbefore.symm))

/-! ## The flushes of a scan -/

/-- Visiting some candidates flushes the matches before a key, namely before that of a candidate
when all those before it were visited. -/
inductive VisitFlushes (s : Scan) : Progress → List Candidate → Progress → Key → Prop where
  | here (pr : Progress) (cand : Candidate) (rest : List Candidate) :
      VisitFlushes s pr (cand :: rest) pr cand.key
  | later {pr mid pr' : Progress} {cand : Candidate} {rest : List Candidate} {limit : Key}
      (visited : s.visit pr cand = .ok (mid, .proceed))
      (flushes : VisitFlushes s mid rest pr' limit) : VisitFlushes s pr (cand :: rest) pr' limit

/-- Visiting groups of candidates flushes the matches before a key. -/
inductive GroupsFlush (s : Scan) (resume : Key) :
    Progress → List (Checked (List Candidate)) → Progress → Key → Prop where
  | here {pr pr' : Progress} {group : List Candidate} {rest : List (Checked (List Candidate))}
      {limit : Key}
      (flushes : s.VisitFlushes { pr with ties := group }
        (group.filter fun cand => decide (resume ≤ cand.key)) pr' limit) :
      GroupsFlush s resume pr (.ok group :: rest) pr' limit
  | later {pr mid pr' : Progress} {group : List Candidate}
      {rest : List (Checked (List Candidate))} {limit : Key}
      (visited : s.visitEach { pr with ties := group }
        (group.filter fun cand => decide (resume ≤ cand.key)) = .ok (mid, .proceed))
      (flushes : GroupsFlush s resume mid rest pr' limit) :
      GroupsFlush s resume pr (.ok group :: rest) pr' limit

/-- At the end of a chunk the matches before a key are flushed. -/
inductive FinishFlushes (s : Scan) (pr : Progress) : Option Key → Progress → Key → Prop where
  | final (final : s.isFinal = true) : FinishFlushes s pr none pr .last
  | horizon {pr' : Progress} {deferred : Option Key} {limit : Key} (not_final : s.isFinal = false)
      (horizon : s.horizon deferred = .ok limit)
      (resumes : pr.update (StreamState.setResume · limit) = .ok pr') :
      FinishFlushes s pr deferred pr' limit

/-- The step after which a chunk ends, with the candidate that was deferred. -/
def Step.ending : Option Key → Step
  | none => .proceed
  | some key => .defer key

/-- The search of a chunk flushes the matches before a key. -/
inductive SearchFlushes (s : Scan) (pr : Progress) (resume : Key)
    (groups : List (Checked (List Candidate))) : Progress → Key → Prop where
  | visiting {mid pr' : Progress} {limit : Key}
      (extended : s.extendOpenRuns pr s.trackers = .ok mid)
      (flushes : s.GroupsFlush resume mid groups pr' limit) :
      SearchFlushes s pr resume groups pr' limit
  | finishing {mid last pr' : Progress} {deferred : Option Key} {limit : Key}
      (extended : s.extendOpenRuns pr s.trackers = .ok mid)
      (visited : s.visitGroups mid resume groups = .ok (last, .ending deferred))
      (flushes : s.FinishFlushes last deferred pr' limit) :
      SearchFlushes s pr resume groups pr' limit

section Flushes

variable {window : Bytes} {ties : List Candidate} {pr : Progress}

theorem Settled.flush_is_exact (hs : s.Over stream resume)
    (h : s.Settled stream base past upto c)
    (hlimit : ∀ key : Key, key.endsAt ≤ s.input.stop → key < limit → key < upto) :
    s.FlushesExactly (c.on window ties) limit := by
  obtain ⟨reported, states, hpoint, hcounts⟩ := h
  exact hpoint.flush_is_exact hs hcounts hlimit window ties

theorem visitEach_flushes (hs : s.Over stream resume) {cands rest : List Candidate}
    (h : s.Settled stream base past upto c) (hresume : resume ≤ upto)
    (hrem : s.Remains stream upto (cands ++ rest)) (hwindow : s.program.windowSize ≤ window.size)
    (hflush : s.VisitFlushes (c.on window ties) cands pr limit) : s.FlushesExactly pr limit := by
  induction cands generalizing c upto window ties with
  | nil => cases hflush
  | cons cand cands ih =>
    obtain ⟨start, ho, hupto, hend, hleast⟩ := hrem.head
    have hle : cand.key ≤ ⟨s.input.stop + 1, 0⟩ :=
      le_trans (le_of_lt (Key.lt_next _)) (next_le hend)
    have hsettled := h.advance hs hupto hle hleast
    cases hflush with
    | here => exact hsettled.flush_is_exact hs fun _ _ hlt => hlt
    | later hvisited hflushes =>
      obtain ⟨c₁, step, hleads, hpasses⟩ := visit_spec hs ho hsettled (le_trans hresume hupto) hend
      obtain ⟨window', ties', hsize, hvisit⟩ := hleads window ties hwindow
      cases hvisited.symm.trans hvisit
      exact ih hpasses (le_trans (le_trans hresume hupto) (le_of_lt (Key.lt_next _))) hrem.tail
        (by omega) hflushes

theorem visitGroups_flushes (hs : s.Over stream resume) {groups : List (List Candidate)}
    (h : s.Settled stream base past upto c) (hresume : resume ≤ upto)
    (hstop : upto ≤ ⟨s.input.stop + 1, 0⟩) (hrem : s.Remains stream upto
      (groups.flatten.filter fun cand => decide (resume ≤ cand.key)))
    (hwindow : s.program.windowSize ≤ window.size)
    (hflush : s.GroupsFlush resume (c.on window ties) (groups.map .ok) pr limit) :
    s.FlushesExactly pr limit := by
  induction groups generalizing c upto window ties with
  | nil => cases hflush
  | cons group groups ih =>
    rw [List.flatten_cons, List.filter_append] at hrem
    cases hflush with
    | here hflushes =>
      change s.VisitFlushes (c.on window group) _ pr limit at hflushes
      exact visitEach_flushes hs h hresume hrem hwindow hflushes
    | later hvisited hflushes =>
      obtain ⟨c₁, step, hleads, hvisits⟩ := visitEach_spec hs h hresume hstop hrem
      obtain ⟨window', ties', hsize, hvisit⟩ := hleads window group hwindow
      cases hvisited.symm.trans hvisit
      obtain ⟨upto', hresume', hstop', hsettled, hrest⟩ := hvisits
      exact ih hsettled hresume' hstop' hrest (by omega) hflushes

/-- The flush at the end of a chunk that is not the last one. -/
theorem horizon_flushes (hs : s.Over stream resume) {deferred : Option Key} {key : Key}
    (hkey : deferred.getD ⟨s.input.stop + 1, 0⟩ = key) (h : s.Settled stream base past key c)
    (hle : key ≤ ⟨s.input.stop + 1, 0⟩) (hrank : key.rank < 0x100000000)
    (hhorizon : s.horizon deferred = .ok limit)
    (hupdate : (c.on window ties).update (StreamState.setResume · limit) = .ok pr) :
    s.FlushesExactly pr limit := by
  obtain ⟨reported, states, hpoint, hcounts⟩ := h
  obtain ⟨region, hset, -, -, hpoint'⟩ := hpoint.setResume hs hle hrank
  rw [horizon_eq hs, hkey] at hhorizon
  cases hhorizon
  simp only [Core.on, Progress.update, hset, Checked.ok_bind] at hupdate
  cases hupdate
  exact hpoint'.flush_is_exact hs hcounts (fun _ _ hlt => hlt) window ties

/-- Each flush of the search of a chunk is exact. -/
theorem Starts.flush_is_exact (hs : s.Over stream resume) {groups : List (List Candidate)}
    (h : s.Starts stream base past resume c groups reported states)
    (hwindow : s.program.windowSize ≤ window.size)
    (hflush : s.SearchFlushes (c.on window ties) resume (groups.map .ok) pr limit) :
    s.FlushesExactly pr limit := by
  obtain ⟨c₁, hextend, hsettled⟩ := h.exists_extended hs
  cases hflush with
  | visiting hextended hflushes =>
    cases hextended.symm.trans (hextend window ties)
    exact visitGroups_flushes hs hsettled (le_refl resume) hs.resume_le_stop h.remains hwindow
      hflushes
  | @finishing mid last _ deferred _ hextended hvisited hflushes =>
    cases hextended.symm.trans (hextend window ties)
    obtain ⟨c₂, step, hleads, hvisits⟩ :=
      visitGroups_spec hs hsettled (le_refl resume) hs.resume_le_stop h.remains
    obtain ⟨window', ties', hsize, hvisit⟩ := hleads window ties hwindow
    cases hvisited.symm.trans hvisit
    cases deferred with
    | some key =>
      have hkey : (some key).getD (⟨s.input.stop + 1, 0⟩ : Key) = key := rfl
      cases hflushes with
      | horizon _ hhorizon hupdate =>
        exact horizon_flushes hs hkey hvisits.settled hvisits.key_le hvisits.rank_lt hhorizon
          hupdate
    | none =>
      have hkey : none.getD (⟨s.input.stop + 1, 0⟩ : Key) = ⟨s.input.stop + 1, 0⟩ := rfl
      have hsettled' := hvisits.settled_at_end hs
      cases hflushes with
      | final => exact hsettled'.flush_is_exact hs fun key hend _ =>
          Key.lt_of_endsAt_lt (by simp only; omega)
      | horizon _ hhorizon hupdate =>
        exact horizon_flushes hs hkey hsettled' (le_refl _) (show 0 < 0x100000000 by omega)
          hhorizon hupdate

/-- Only a flush before a candidate or a candidate itself can end the visit of groups. -/
theorem exists_groupsFlush {groups : List (Checked (List Candidate))} {pr' : Progress} {step : Step}
    (h : s.visitGroups pr resume groups = .ok (pr', step)) (hstep : step ≠ .proceed) :
    ∃ pr'' limit, s.GroupsFlush resume pr groups pr'' limit := by
  induction groups generalizing pr with
  | nil =>
    cases h
    exact absurd rfl hstep
  | cons found rest ih =>
    obtain ⟨group, rfl, -⟩ := Checked.bind_eq_ok_iff.mp h
    rcases hcands : group.filter (fun cand => decide (resume ≤ cand.key)) with _ | ⟨cand, cands⟩
    · have hvisited : s.visitEach { pr with ties := group }
          (group.filter fun cand => decide (resume ≤ cand.key)) =
            .ok ({ pr with ties := group }, .proceed) := by
        rw [hcands]
        rfl
      rw [visitGroups_of_proceed hvisited] at h
      obtain ⟨pr'', limit, hflush⟩ := ih h
      exact ⟨pr'', limit, .later hvisited hflush⟩
    · refine ⟨{ pr with ties := group }, cand.key, .here ?_⟩
      rw [hcands]
      exact .here _ cand cands

/-- The search of a chunk flushes at least once. -/
theorem Starts.exists_flush (hs : s.Over stream resume) {groups : List (List Candidate)}
    (h : s.Starts stream base past resume c groups reported states)
    (hwindow : s.program.windowSize ≤ window.size) :
    ∃ pr limit, s.SearchFlushes (c.on window ties) resume (groups.map .ok) pr limit := by
  obtain ⟨c₁, hextend, hsettled⟩ := h.exists_extended hs
  obtain ⟨c₂, step, hleads, hvisits⟩ :=
    visitGroups_spec hs hsettled (le_refl resume) hs.resume_le_stop h.remains
  obtain ⟨window', ties', -, hvisit⟩ := hleads window ties hwindow
  have hhorizon {deferred : Option Key} {key : Key}
      (hkey : deferred.getD ⟨s.input.stop + 1, 0⟩ = key) (hfinal : s.isFinal = false)
      (hsettled : s.Settled stream base past key c₂) (hle : key ≤ ⟨s.input.stop + 1, 0⟩)
      (hrank : key.rank < 0x100000000) :
      ∃ pr limit, s.FinishFlushes (c₂.on window' ties') deferred pr limit := by
    obtain ⟨reported, states, hpoint, -⟩ := hsettled
    obtain ⟨region, hset, -⟩ := hpoint.setResume hs hle hrank
    refine ⟨{ c₂ with region }.on window' ties', key, .horizon hfinal ?_ ?_⟩
    · rw [horizon_eq hs, hkey]
    · simp only [Core.on, Progress.update, hset, Checked.ok_bind, Checked.pure_eq]
  cases step with
  | stop =>
    obtain ⟨pr, limit, hflush⟩ := exists_groupsFlush hvisit (by simp)
    exact ⟨pr, limit, .visiting (hextend window ties) hflush⟩
  | defer key =>
    have hkey : (some key).getD (⟨s.input.stop + 1, 0⟩ : Key) = key := rfl
    obtain ⟨pr, limit, hflush⟩ := hhorizon hkey hvisits.not_final hvisits.settled hvisits.key_le
      hvisits.rank_lt
    exact ⟨pr, limit, .finishing (hextend window ties) hvisit hflush⟩
  | proceed =>
    have hkey : none.getD (⟨s.input.stop + 1, 0⟩ : Key) = ⟨s.input.stop + 1, 0⟩ := rfl
    have hfinish : ∃ pr limit, s.FinishFlushes (c₂.on window' ties') none pr limit := by
      rcases hfinal : s.isFinal with _ | _
      · exact hhorizon hkey hfinal (hvisits.settled_at_end hs) (le_refl _)
          (show 0 < 0x100000000 by omega)
      · exact ⟨_, _, .final hfinal⟩
    obtain ⟨pr, limit, hflush⟩ := hfinish
    exact ⟨pr, limit, .finishing (hextend window ties) hvisit hflush⟩

end Flushes

end StreamMatch.Scan
