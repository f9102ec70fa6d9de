-- Reporting pending matches. The one that goes first is the next match of the
-- stream, so what was reported stays an initial part of all the matches. Exactly
-- the pending matches before a key are handed over, in the order of their keys.
import StreamMatch.Proofs.Scan.Drains
import StreamMatch.Proofs.Scan.Report

namespace StreamMatch.Scan

open Bytes

variable {s : Scan} {stream base : Bytes} {resume upto limit : Key} {past : List Event} {c : Core}
  {reported : List RawMatch} {states : Repeat → RunState} {r : Repeat} {m : Run}

/-! ## Searching the pending matches -/

/-- The first of some pending matches, after the best one of those before. -/
structure FirstOf (place : Repeat → Tracker) (states : Repeat → RunState) (repeats : List Repeat)
    (best : Option (Key × Tracker)) (found : Option (Key × Tracker)) : Prop where
  of_none : found = none → best = none ∧ ∀ r ∈ repeats, (states r).pending = none
  from_best_or_repeats : ∀ key t, found = some (key, t) → best = some (key, t) ∨
    ∃ r ∈ repeats, ∃ m, t = place r ∧ (states r).pending = some m ∧ key = m.key
  best_le : ∀ key t key' t', found = some (key, t) → best = some (key', t') → key ≤ key'
  least : ∀ key t, found = some (key, t) → ∀ r ∈ repeats, ∀ m, (states r).pending = some m →
    key ≤ m.key

namespace FirstOf

variable {place : Repeat → Tracker} {repeats : List Repeat} {best found : Option (Key × Tracker)}

theorem nil (best : Option (Key × Tracker)) : FirstOf place states [] best best := by
  refine ⟨?_, ?_, ?_, ?_⟩
  · exact fun hn => ⟨hn, fun r hr => absurd hr List.not_mem_nil⟩
  · exact fun key t hf => Or.inl hf
  · intro key t key' t' hf hf'
    rw [hf, Option.some.injEq, Prod.mk.injEq] at hf'
    exact le_of_eq hf'.1
  · exact fun key t _ r hr => absurd hr List.not_mem_nil

theorem cons_of_none (h : FirstOf place states repeats best found)
    (hp : (states r).pending = none) : FirstOf place states (r :: repeats) best found := by
  refine ⟨?_, ?_, h.best_le, ?_⟩
  · intro hf
    obtain ⟨hb, hall⟩ := h.of_none hf
    exact ⟨hb, List.forall_mem_cons.mpr ⟨hp, hall⟩⟩
  · intro key t hf
    refine (h.from_best_or_repeats key t hf).imp_right ?_
    rintro ⟨r', hr', hr''⟩
    exact ⟨r', List.mem_cons_of_mem r hr', hr''⟩
  · intro key t hf
    refine List.forall_mem_cons.mpr ⟨?_, h.least key t hf⟩
    intro m' hm'
    rw [hp] at hm'
    cases hm'

/-- The pending match of a repeat is compared with the best one before it. -/
theorem cons_of_some {key : Key} {t : Tracker}
    (h : FirstOf place states repeats (some (key, t)) found) (hp : (states r).pending = some m)
    (horigin : best = some (key, t) ∨ t = place r ∧ key = m.key)
    (hbest : ∀ key' t', best = some (key', t') → key ≤ key') (hself : key ≤ m.key) :
    FirstOf place states (r :: repeats) best found := by
  refine ⟨?_, ?_, ?_, ?_⟩
  · intro hf
    exact absurd (h.of_none hf).1 (by simp)
  · intro key' t' hf
    rcases h.from_best_or_repeats key' t' hf with hb | ⟨r', hr', hr''⟩
    · cases hb
      refine horigin.imp_right ?_
      rintro ⟨ht, hkey⟩
      exact ⟨r, List.mem_cons_self, m, ht, hp, hkey⟩
    · exact Or.inr ⟨r', List.mem_cons_of_mem r hr', hr''⟩
  · intro key₁ t₁ key' t' hf hb
    exact le_trans (h.best_le key₁ t₁ key t hf rfl) (hbest key' t' hb)
  · intro key₁ t₁ hf
    refine List.forall_mem_cons.mpr ⟨?_, h.least key₁ t₁ hf⟩
    intro m' hm'
    rw [hp, Option.some.injEq] at hm'
    subst hm'
    exact le_trans (h.best_le key₁ t₁ key t hf rfl) hself

end FirstOf

theorem firstPending_spec {region : Bytes} {place : Repeat → Tracker} {repeats : List Repeat}
    (h : ∀ r ∈ repeats, (place r).Tracks region (states r)) (best : Option (Key × Tracker)) :
    ∃ found, firstPending region best (repeats.map place) = .ok found ∧
      FirstOf place states repeats best found := by
  induction repeats generalizing best with
  | nil => exact ⟨best, rfl, .nil best⟩
  | cons r rest ih =>
    have hrest := fun r' hr' => h r' (List.mem_cons_of_mem r hr')
    have hpending := (h r List.mem_cons_self).pending_eq
    rw [List.map_cons, firstPending, hpending, Checked.ok_bind]
    rcases hp : (states r).pending with _ | m
    · obtain ⟨found, hfound, hfirst⟩ := ih hrest best
      exact ⟨found, hfound, hfirst.cons_of_none hp⟩
    · obtain ⟨found, hfound, hfirst⟩ := ih hrest (some (m.key, place r))
      rcases best with _ | ⟨key, t⟩
      · refine ⟨found, hfound, hfirst.cons_of_some hp (Or.inr ⟨rfl, rfl⟩) ?_ (le_refl _)⟩
        rintro key' t' ⟨⟩
      · by_cases hlt : m.key < key
        · simp only [hlt, decide_true, if_true]
          refine ⟨found, hfound, hfirst.cons_of_some hp (Or.inr ⟨rfl, rfl⟩) ?_ (le_refl _)⟩
          rintro key' t' ⟨⟩
          exact le_of_lt hlt
        · obtain ⟨found', hfound', hfirst'⟩ := ih hrest (some (key, t))
          simp only [hlt, decide_false, Bool.false_eq_true, if_false]
          refine ⟨found', hfound', hfirst'.cons_of_some hp (Or.inl rfl) ?_ (le_of_not_gt hlt)⟩
          rintro key' t' ⟨⟩
          exact le_refl _

theorem countPending_eq {region : Bytes} {place : Repeat → Tracker} {repeats : List Repeat}
    (h : ∀ r ∈ repeats, (place r).Tracks region (states r)) :
    countPending region (repeats.map place) =
      .ok (repeats.countP fun r => (states r).pending.isSome) := by
  induction repeats with
  | nil => rfl
  | cons r rest ih =>
    have hrest := ih fun r' hr' => h r' (List.mem_cons_of_mem r hr')
    rw [List.map_cons, countPending, (h r List.mem_cons_self).pending_eq, hrest, List.countP_cons]
    simp only [Checked.ok_bind, Checked.pure_eq, Except.ok.injEq]
    omega

/-- If there are pending matches, the one that goes first is found. -/
theorem exists_firstPending {region : Bytes} {count : Nat}
    (htrackers : s.trackers = s.program.repeats.toList.map s.program.layout.place)
    (h : ∀ r ∈ s.program.repeats, (s.program.layout.place r).Tracks region (states r))
    (hcount : count + 1 = s.program.repeats.toList.countP fun r => (states r).pending.isSome) :
    ∃ r ∈ s.program.repeats, ∃ m, (states r).pending = some m ∧ s.Waits states m.key ∧
      firstPending region none s.trackers = .ok (some (m.key, s.program.layout.place r)) := by
  obtain ⟨found, hfound, hfirst⟩ :=
    firstPending_spec (fun r hr => h r (Array.mem_toList_iff.mp hr)) none
  rcases found with _ | ⟨key, t⟩
  · have hnone := (hfirst.of_none rfl).2
    have hzero : (s.program.repeats.toList.countP fun r => (states r).pending.isSome) = 0 :=
      List.countP_eq_zero.mpr fun r hr => by simp [hnone r hr]
    omega
  · obtain ⟨r, hr, m, rfl, hm, rfl⟩ := (hfirst.from_best_or_repeats key t rfl).resolve_left
      (by simp)
    rw [htrackers]
    exact ⟨r, Array.mem_toList_iff.mp hr, m, hm,
      fun r' hr' => hfirst.least _ _ rfl r' (Array.mem_toList_iff.mpr hr'), hfound⟩

/-- How far a scan got, less the key that it keeps for the pending matches. -/
def withoutEarliest (o : Progress × Action) : Progress × Action :=
  ({ o.1 with pending := ⟨o.1.pending.count, .first⟩ }, o.2)

/-- The key that is kept for the pending matches only saves a search. Without it the outcome
is the same, also when a check fails. -/
theorem flush_eq_flushSome {pr : Progress}
    (htrackers : s.trackers = s.program.repeats.toList.map s.program.layout.place)
    (htracks : ∀ r ∈ s.program.repeats, (s.program.layout.place r).Tracks pr.region (states r))
    (hcounts : pr.pending.Counts s.program.repeats.toList states) :
    (s.flush pr limit).map withoutEarliest =
      (s.flushSome pr limit pr.pending.count).map withoutEarliest := by
  unfold flush
  split
  case isFalse => rfl
  case isTrue hle =>
    rcases hcount : pr.pending.count with _ | count
    · simp only [flushSome, withoutEarliest, Checked.pure_eq, Except.map, hcount, Pending.none]
    · -- The search finds a match, and it does not go before the key.
      obtain ⟨r, hr, m, hm, -, hfirst⟩ :=
        exists_firstPending htrackers htracks (hcount ▸ hcounts.count_eq)
      have hkey := le_trans hle (hcounts.earliest_le r (Array.mem_toList_iff.mpr hr) m hm)
      rw [flushSome, hfirst, Checked.ok_bind]
      simp only [if_pos hkey, withoutEarliest, Checked.pure_eq, Except.map, hcount]

/-! ## Reporting the first pending match -/

/-- The pending match that goes first is the next match of the stream. -/
theorem Point.next_of_pending (hs : s.Over stream resume)
    (h : s.Point stream base past upto c reported states) (hr : r ∈ s.program.repeats)
    (hm : (states r).pending = some m) (hleast : s.Waits states m.key) (hlt : m.key < upto) :
    ∃ first stop, m = r.runOf stream first stop ∧ r.allowed.IsRun stream first stop ∧
      reported ++ [r.matchOf stream first stop] <+: s.program.rawMatches stream := by
  obtain ⟨first, stop, hf, hended, ha, rfl, hnot⟩ := ((h.found r hr).pending_iff m).mp hm
  refine ⟨first, stop, rfl, hf.isRun, ?_⟩
  refine Program.append_prefix hs.sound.pairwise_rawMatches h.ordered ?_ hnot ?_
  · exact Program.mem_rawMatches.mpr
      (Or.inr (Program.mem_runMatches.mpr ⟨r, hr, first, stop, hf.isRun, ha, rfl⟩))
  · intro a hmem hna
    rcases Program.mem_rawMatches.mp hmem with hlit | hrun
    · rw [h.literals a hlit] at hna
      exact le_of_lt (lt_of_lt_of_le hlt (le_of_not_gt hna))
    · obtain ⟨r', hr', first', stop', hrun', ha', rfl⟩ := Program.mem_runMatches.mp hrun
      rcases (h.found r' hr').unreported hrun' ha' hna with hp | ⟨hfinal, -, hstop⟩ | hupto
      · exact hleast r' hr' _ hp
      · -- An open run goes on to the end of the chunk, and this one ended before.
        have hbefore : stop < s.input.stop := hended.resolve_right (by simp [hfinal])
        exact le_of_lt (Key.lt_of_endsAt_lt (Nat.lt_of_lt_of_le hbefore hstop))
      · exact le_of_lt (lt_of_lt_of_le hlt (le_trans hupto (Repeat.trigger_le hrun')))

theorem Point.pending_endsAt_le (hs : s.Over stream resume)
    (h : s.Point stream base past upto c reported states) (hr : r ∈ s.program.repeats)
    (hm : (states r).pending = some m) : m.key.endsAt ≤ s.input.stop := by
  obtain ⟨first, stop, hf, hended, -, rfl, -⟩ := ((h.found r hr).pending_iff m).mp hm
  rcases hended with hlt | hfinal
  · exact Nat.le_of_lt hlt
  · rw [hs.final_eq hfinal]
    exact hf.isRun.le_size

/-- A pending match is reported and forgotten. -/
theorem Point.take (hs : s.Over stream resume)
    (h : s.Point stream base past upto c reported states) (hr : r ∈ s.program.repeats)
    {first stop : Nat} (hrun : r.allowed.IsRun stream first stop)
    (hm : (states r).pending = some (r.runOf stream first stop))
    (hlt : r.keyAt stream stop < upto) {c' : Core}
    (hpre : reported ++ [r.matchOf stream first stop] <+: s.program.rawMatches stream)
    (hk : s.program.Keeps base c'.region (Function.update states r (states r).take)
      (s.program.entryAfter (s.program.kept (reported ++ [r.matchOf stream first stop]))))
    (ht : s.Tells past c' (reported ++ [r.matchOf stream first stop]) .proceed) :
    s.Point stream base past upto c' (reported ++ [r.matchOf stream first stop])
      (Function.update states r (states r).take) := by
  refine ⟨hk, ?_, hpre, ?_, ?_, ht⟩
  · intro r' hr'
    by_cases heq : r' = r
    · subst heq
      rw [Function.update_self]
      exact (h.found r' hr').append_own hm
    · rw [Function.update_of_ne heq]
      refine (h.found r' hr').append_other fun first' stop' hrun' hsame => heq ?_
      exact (hs.sound.matchOf_inj hr hr' hrun hrun' (congrArg RawMatch.key hsame)).1.symm
  · intro a ha
    rcases List.mem_append.mp ha with ha | ha
    · exact h.below a ha
    · rw [List.mem_singleton.mp ha]
      exact hlt
  · intro a ha
    have hlt := hrun.lt
    have hne : a ≠ r.matchOf stream first stop := by
      rintro rfl
      exact hs.sound.literal_key_ne ha hr (hrun.inside _ (by omega) (by omega)) rfl
    rw [← h.literals a ha]
    simp [hne]

/-- The result of reporting the pending matches before a key. -/
def Flushed (s : Scan) (stream base : Bytes) (past : List Event) (upto limit : Key) (c : Core) :
    Action → Prop
  | .proceed => ∃ reported states, s.Point stream base past upto c reported states ∧
      c.pending.Counts s.program.repeats.toList states ∧ s.Waits states limit
  | .stop => s.Halted stream base past c

theorem Point.congr (h : s.Point stream base past upto c reported states) (pending : Pending) :
    s.Point stream base past upto { c with pending } reported states :=
  ⟨h.keeps, h.found, h.ordered, h.below, h.literals, h.tells.of_silent ⟨rfl, rfl⟩⟩

/-- The pending match that goes first is taken out of its state and reported. -/
theorem Point.report_pending (hs : s.Over stream resume)
    (h : s.Point stream base past upto c reported states) (hr : r ∈ s.program.repeats)
    {first stop : Nat} (hrun : r.allowed.IsRun stream first stop)
    (hm : (states r).pending = some (r.runOf stream first stop))
    (hlt : r.keyAt stream stop < upto)
    (hpre : reported ++ [r.matchOf stream first stop] <+: s.program.rawMatches stream) :
    ∃ region' c' a,
      (s.program.layout.place r).take c.region =
        .ok (region', some (r.runOf stream first stop)) ∧
      (∀ window ties, s.report ({ c with region := region' }.on window ties) r.pattern first
        stop = .ok (c'.on window ties, a)) ∧
      (∀ r' ∈ s.program.repeats, (s.program.layout.place r').Tracks c'.region
        (Function.update states r (states r).take r')) ∧
      (a = .proceed → s.Point stream base past upto c'
        (reported ++ [r.matchOf stream first stop])
        (Function.update states r (states r).take)) ∧
      (a = .stop → s.Halted stream base past c') := by
  obtain ⟨region', htake, hagree, htracks⟩ := Tracker.take_spec (h.keeps.tracks r hr)
  rw [hm] at htake
  obtain ⟨c', a, hreport, -, hk, ht⟩ := report_spec (c := { c with region := region' }) hs
    (h.keeps.setState hs.sound hr hagree htracks) hpre (h.tells.of_silent ⟨rfl, rfl⟩)
  refine ⟨region', c', a, htake, hreport, hk.tracks, ?_, ?_⟩
  · rintro rfl
    exact h.take hs hr hrun hm hlt hpre hk ht
  · rintro rfl
    exact ⟨.of_frame hk.frame, hk.size_eq, _, hpre, ht⟩

/-! ## Handing over -/

/-- Reports the pending matches as `flushSome` does, and gives those that are handed to
`report`, with the places of the states that they are taken from. -/
def flushSomeHanding (s : Scan) (pr : Progress) (limit : Key) :
    (count : Nat) → Checked (List (Tracker × Run) × Progress × Action)
  | 0 => return ([], { pr with pending := .none }, .proceed)
  | count + 1 => do
    match ← firstPending pr.region none s.trackers with
    | none => return ([], { pr with pending := ⟨count + 1, .last⟩ }, .proceed)
    | some (key, t) =>
      if limit ≤ key then return ([], { pr with pending := ⟨count + 1, key⟩ }, .proceed)
      let (pr, run) ← pr.updateWith t.take
      match run with
      | none => flushSomeHanding s pr limit count
      | some run =>
        match ← s.report pr t.rep.pattern run.startsAt run.endsAt with
        | (pr, .stop) => return ([(t, run)], { pr with pending := ⟨count, key⟩ }, .stop)
        | (pr, .proceed) =>
          let (handed, outcome) ← flushSomeHanding s pr limit count
          return ((t, run) :: handed, outcome)

/-- Reports the pending matches as `flush` does, and gives those that are handed to
`report`. -/
def flushHanding (s : Scan) (pr : Progress) (limit : Key) :
    Checked (List (Tracker × Run) × Progress × Action) :=
  if limit ≤ pr.pending.earliest then return ([], pr, .proceed)
  else s.flushSomeHanding pr limit pr.pending.count

theorem flushSome_eq_map (s : Scan) (pr : Progress) (limit : Key) (count : Nat) :
    s.flushSome pr limit count = (s.flushSomeHanding pr limit count).map Prod.snd := by
  induction count generalizing pr with
  | zero => rfl
  | succ count ih =>
    rw [flushSome, flushSomeHanding]
    rcases firstPending pr.region none s.trackers with _ | _ | ⟨key, t⟩
    · rfl
    · rfl
    · simp only [Checked.ok_bind]
      split
      · rfl
      · rcases pr.updateWith t.take with _ | ⟨pr', _ | run⟩
        · rfl
        · exact ih pr'
        · simp only [Checked.ok_bind]
          rcases s.report pr' t.rep.pattern run.startsAt run.endsAt with _ | ⟨pr'', _ | _⟩
          · rfl
          · simp only [Checked.ok_bind, ih pr'']
            rcases s.flushSomeHanding pr'' limit count with _ | _ <;> rfl
          · rfl

theorem flush_eq_map (s : Scan) (pr : Progress) (limit : Key) :
    s.flush pr limit = (s.flushHanding pr limit).map Prod.snd := by
  unfold flush flushHanding
  split
  · rfl
  · exact s.flushSome_eq_map pr limit pr.pending.count

/-- The match that goes first is handed over. -/
theorem flushSomeHanding_succ {pr pr' : Progress} {t : Tracker} {region : Bytes} {count : Nat}
    {a : Action} (hfirst : firstPending pr.region none s.trackers = .ok (some (m.key, t)))
    (hlt : m.key < limit) (htake : t.take pr.region = .ok (region, some m))
    (hreport : s.report { pr with region } t.rep.pattern m.startsAt m.endsAt = .ok (pr', a)) :
    s.flushSomeHanding pr limit (count + 1) =
      if a = .stop then .ok ([(t, m)], { pr' with pending := ⟨count, m.key⟩ }, .stop)
      else (s.flushSomeHanding pr' limit count).map fun o => ((t, m) :: o.1, o.2) := by
  rw [flushSomeHanding, hfirst, Checked.ok_bind]
  simp only [if_neg (not_le_of_gt hlt), Progress.updateWith, htake, Checked.ok_bind,
    Checked.pure_eq, hreport]
  cases a <;> rfl

/-- What handing over the pending matches before a key leaves. -/
structure Handed (s : Scan) (stream base : Bytes) (past : List Event) (upto limit : Key)
    (states states' : Repeat → RunState) (handed : List (Repeat × Run)) (c : Core) (a : Action) :
    Prop where
  drains : s.Drains limit states handed states'
  tracks : ∀ r ∈ s.program.repeats, (s.program.layout.place r).Tracks c.region (states' r)
  counts : c.pending.Counts s.program.repeats.toList states'
  flushed : match a with
    | .proceed => (∃ reported, s.Point stream base past upto c reported states') ∧
        s.Waits states' limit
    | .stop => s.Halted stream base past c

/-- Nothing is handed over if nothing is pending before the key. -/
theorem Point.handed_nil (h : s.Point stream base past upto c reported states)
    {pending : Pending} (hcounts : pending.Counts s.program.repeats.toList states)
    (hwaits : s.Waits states limit) :
    s.Handed stream base past upto limit states states [] { c with pending } .proceed :=
  ⟨.nil states, h.keeps.tracks, hcounts, ⟨reported, h.congr pending⟩, hwaits⟩

/-- One more match is handed over before the others. -/
theorem Handed.cons {states' : Repeat → RunState} {handed : List (Repeat × Run)} {a : Action}
    (h : s.Handed stream base past upto limit (Function.update states r (states r).take) states'
      handed c a)
    (hr : r ∈ s.program.repeats) (hm : (states r).pending = some m)
    (hleast : s.Waits states m.key) (hlt : m.key < limit) :
    s.Handed stream base past upto limit states states' ((r, m) :: handed) c a :=
  ⟨.cons hr hm hleast hlt h.drains, h.tracks, h.counts, h.flushed⟩

/-- The match that is handed over stops the scan. -/
theorem Halted.handed (h : s.Halted stream base past c) {count : Nat}
    (hr : r ∈ s.program.repeats) (hm : (states r).pending = some m)
    (hleast : s.Waits states m.key) (hlt : m.key < limit)
    (htracks : ∀ r' ∈ s.program.repeats, (s.program.layout.place r').Tracks c.region
      (Function.update states r (states r).take r'))
    (hcount : count = s.program.repeats.toList.countP fun x =>
      (Function.update states r (states r).take x).pending.isSome) :
    s.Handed stream base past upto limit states (Function.update states r (states r).take)
      [(r, m)] { c with pending := ⟨count, m.key⟩ } .stop := by
  obtain ⟨hsame, hsize, reported, hpre, htells⟩ := h
  refine ⟨.cons hr hm hleast hlt (.nil _), htracks, ⟨hcount, fun r' hr' m' hm' => ?_⟩,
    hsame, hsize, reported, hpre, htells.of_silent ⟨rfl, rfl⟩⟩
  exact hleast r' (Array.mem_toList_iff.mp hr') m' (pending_take_iff.mp hm').2

/-- The matches with the places of the states that they are taken from. -/
def placed (s : Scan) (handed : List (Repeat × Run)) : List (Tracker × Run) :=
  handed.map fun h => (s.program.layout.place h.1, h.2)

theorem flushSomeHanding_spec (hs : s.Over stream resume)
    (h : s.Point stream base past upto c reported states)
    (hlimit : ∀ key : Key, key.endsAt ≤ s.input.stop → key < limit → key < upto) {count : Nat}
    (hcount : count = s.program.repeats.toList.countP fun r => (states r).pending.isSome) :
    ∃ handed states' c' a, (∀ window ties, s.flushSomeHanding (c.on window ties) limit count =
        .ok (s.placed handed, c'.on window ties, a)) ∧
      s.Handed stream base past upto limit states states' handed c' a := by
  induction count generalizing c reported states with
  | zero =>
    exact ⟨[], states, { c with pending := .none }, .proceed, fun window ties => rfl,
      h.handed_nil (counts_none_of_count hcount) (waits_of_count hcount limit)⟩
  | succ count ih =>
    obtain ⟨r, hr, m, hm, hleast, hfirst⟩ :=
      exists_firstPending hs.trackers_eq h.keeps.tracks hcount
    by_cases hle : limit ≤ m.key
    · refine ⟨[], states, { c with pending := ⟨count + 1, m.key⟩ }, .proceed, ?_,
        h.handed_nil ⟨hcount, fun r hr => hleast r (Array.mem_toList_iff.mp hr)⟩
          fun r hr m' hm' => le_trans hle (hleast r hr m' hm')⟩
      intro window ties
      rw [flushSomeHanding]
      simp only [Core.on, hfirst, Checked.ok_bind, if_pos hle]
      rfl
    · have hlt : m.key < limit := lt_of_not_ge hle
      have hupto := hlimit m.key (h.pending_endsAt_le hs hr hm) hlt
      obtain ⟨first, stop, rfl, hrun, hpre⟩ := h.next_of_pending hs hr hm hleast hupto
      obtain ⟨region', c', a, htake, hreport, htracks', hpoint, hhalted⟩ :=
        h.report_pending hs hr hrun hm hupto hpre
      have hcount' :=
        Pending.countP_take hs.sound.nodup_repeats (Array.mem_toList_iff.mpr hr) hm
      have hstep (window : Bytes) (ties : List Candidate) :
          s.flushSomeHanding (c.on window ties) limit (count + 1) = _ :=
        flushSomeHanding_succ hfirst hlt htake (hreport window ties)
      cases a with
      | proceed =>
        obtain ⟨handed, states', c'', a', hflush, hhanded⟩ := ih (hpoint rfl) (by omega)
        refine ⟨_, states', c'', a', fun window ties => ?_, hhanded.cons hr hm hleast hlt⟩
        rw [hstep, if_neg (by simp), hflush]
        rfl
      | stop =>
        have hleft := Nat.succ.inj (hcount.trans hcount'.symm)
        refine ⟨_, _, _, .stop, fun window ties => ?_,
          (hhalted rfl).handed hr hm hleast hlt htracks' hleft⟩
        rw [hstep, if_pos rfl]
        rfl

/-- The matches that are pending before a key are handed over, up to the one that stops the
scan. -/
theorem flushHanding_spec (hs : s.Over stream resume)
    (h : s.Point stream base past upto c reported states)
    (hcounts : c.pending.Counts s.program.repeats.toList states)
    (hlimit : ∀ key : Key, key.endsAt ≤ s.input.stop → key < limit → key < upto) :
    ∃ handed states' c' a, (∀ window ties, s.flushHanding (c.on window ties) limit =
        .ok (s.placed handed, c'.on window ties, a)) ∧
      s.Handed stream base past upto limit states states' handed c' a := by
  by_cases hle : limit ≤ c.pending.earliest
  · refine ⟨[], states, c, .proceed, ?_, h.handed_nil hcounts fun r hr m hm =>
      le_trans hle (hcounts.earliest_le r (Array.mem_toList_iff.mpr hr) m hm)⟩
    intro window ties
    unfold flushHanding Core.on
    rw [if_pos hle]
    rfl
  · obtain ⟨handed, states', c', a, hflush, hhanded⟩ :=
      flushSomeHanding_spec hs h hlimit hcounts.count_eq
    refine ⟨handed, states', c', a, fun window ties => ?_, hhanded⟩
    unfold flushHanding
    rw [← hflush window ties]
    exact if_neg hle

/-- Reporting the pending matches before a key either stops the scan, or leaves
only matches that do not go before the key. -/
theorem flush_spec (hs : s.Over stream resume)
    (h : s.Point stream base past upto c reported states)
    (hcounts : c.pending.Counts s.program.repeats.toList states)
    (hlimit : ∀ key : Key, key.endsAt ≤ s.input.stop → key < limit → key < upto) :
    ∃ c' a, (∀ window ties, s.flush (c.on window ties) limit = .ok (c'.on window ties, a)) ∧
      s.Flushed stream base past upto limit c' a := by
  obtain ⟨handed, states', c', a, hflush, hhanded⟩ := flushHanding_spec hs h hcounts hlimit
  refine ⟨c', a, fun window ties => ?_, ?_⟩
  · rw [flush_eq_map, hflush]
    rfl
  · cases a with
    | proceed =>
      obtain ⟨⟨reported', hpoint⟩, hwaits⟩ := hhanded.flushed
      exact ⟨reported', states', hpoint, hhanded.counts, hwaits⟩
    | stop => exact hhanded.flushed

end StreamMatch.Scan
