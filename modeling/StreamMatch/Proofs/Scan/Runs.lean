-- Runs during a scan: those that were open are extended, and a candidate can
-- start a new one. After each step the state of a repeat agrees with the runs
-- found so far.
import StreamMatch.Proofs.Scan.Report

namespace StreamMatch.Scan

open Bytes

variable {s : Scan} {stream base : Bytes} {resume upto : Key} {past : List Event} {c : Core}
  {reported : List RawMatch} {states : Repeat → RunState} {entries : Nat → PatternEntry}
  {r : Repeat} {first stop last n : Nat}

/-! ## One run -/

theorem extendRun_spec (hp : s.program.Sound)
    (hk : s.program.Keeps base c.region states entries) (hr : r ∈ s.program.repeats)
    (hle : n ≤ last) (hlt : last < Word.largest)
    (hopen : 0 < (states r).length → (states r).lastEnd.getD 0 + n = last)
    (hzero : n = 0 → (states r).lastEnd = some last) :
    ∃ region', (∀ window ties, extendRun (c.on window ties) (s.program.layout.place r) n last =
        .ok ({ c with region := region' }.on window ties)) ∧
      s.program.Keeps base region' (Function.update states r ((states r).extend n last))
        entries := by
  by_cases hn : n = 0
  · refine ⟨c.region, ?_, ?_⟩
    · intro window ties
      simp [extendRun, Progress.update, Core.on, Tracker.extend, hn, Checked.pure_eq]
    · have hsame : (states r).extend n last = states r := by
        rw [RunState.extend, hn, ← hzero hn]
        rfl
      rw [hsame, Function.update_eq_self]
      exact hk
  · obtain ⟨region', hext, hagree, htracks⟩ := Tracker.extend_spec (hk.tracks r hr)
      (hp.trackable r hr) (Nat.pos_of_ne_zero hn) hle hlt hopen
    refine ⟨region', ?_, hk.setState hp hr hagree htracks⟩
    intro window ties
    simp [extendRun, Progress.update, Core.on, hext, Checked.pure_eq]

/-- A run that ends in the chunk, or with it, is settled: either it can go on or
it is closed. -/
structure Settles (s : Scan) (stream base : Bytes) (upto : Key) (c : Core)
    (reported : List RawMatch) (states : Repeat → RunState) (entries : Nat → PatternEntry)
    (r : Repeat) (c' : Core) (st : RunState) : Prop where
  silent : c.Silent c'
  keeps : s.program.Keeps base c'.region (Function.update states r st) entries
  counts : c'.pending.Counts s.program.repeats.toList (Function.update states r st)
  found : r.Found stream s.input.stop s.isFinal upto reported st

theorem closeRun_spec (hs : s.Over stream resume)
    (hk : s.program.Keeps base c.region states entries)
    (hcounts : c.pending.Counts s.program.repeats.toList states) (hr : r ∈ s.program.repeats)
    (hlatest : r.Latest stream s.input.stop s.isFinal upto reported first stop)
    (hst : states r = ⟨some stop, stop - first, none⟩)
    (hended : Repeat.Ended s.input.stop s.isFinal stop) (hle : stop ≤ s.input.stop)
    (hfloor : s.input.floor < stop) :
    ∃ c' st, (∀ window ties, s.closeRun (c.on window ties) (s.program.layout.place r) stop =
        .ok (c'.on window ties)) ∧
      s.Settles stream base upto c reported states entries r c' st := by
  have hlt := hlatest.finds.isRun.lt
  have hlast : r.allowed.contains (byteAt stream (stop - 1)) = true :=
    hlatest.finds.isRun.inside _ (by omega) (by omega)
  have hbyte := Input.byteAt_eq hs.shows (show s.input.floor ≤ stop - 1 by omega)
    (by unfold Input.stop at hle; omega)
  have hcurrent : (states r).current r (r.rankOf (byteAt stream (stop - 1))) =
      if r.accepts (stop - first) = true then some (r.runOf stream first stop) else none := by
    rw [hst, RunState.current_eq]
    unfold Repeat.runOf Repeat.keyAt
    simp only [Option.getD_some, show stop - (stop - first) = first by omega,
      show 0 < stop - first by omega, true_and]
  have hpending : (states r).pending = none := by rw [hst]
  obtain ⟨region', hclose, hagree, htracks⟩ := Tracker.close_spec (hk.tracks r hr)
    (hs.sound.trackable r hr) (hs.sound.keyAt_rank_lt hr hlast) fun _ => hpending
  have hplace : (s.program.layout.place r).rep = r := rfl
  have hstate : (states r).close r (r.rankOf (byteAt stream (stop - 1))) = ⟨some stop, 0,
      if r.accepts (stop - first) = true then some (r.runOf stream first stop) else none⟩ := by
    rw [RunState.close, hcurrent, hpending, Option.or_none, hst]
  simp only [hplace, Repeat.keyAt] at hclose htracks
  rw [hstate] at htracks
  rw [hcurrent] at hclose
  have hkeeps := hk.setState hs.sound hr hagree htracks
  have hfound := hlatest.found_closed hended hle
  by_cases ha : r.accepts (stop - first) = true
  · rw [if_pos ha] at hclose hkeeps hfound
    refine ⟨⟨region', c.pending.add (r.runOf stream first stop).key, c.phase, c.events⟩, _, ?_,
      ⟨rfl, rfl⟩, hkeeps, hcounts.add hs.sound.nodup_repeats (Array.mem_toList_iff.mpr hr) hpending rfl, hfound⟩
    intro window ties
    unfold closeRun
    simp [Word.sub_eq_ok (show 1 ≤ stop by omega), hbyte, Progress.updateWith, Core.on, hplace,
      hclose, Checked.pure_eq]
  · rw [if_neg ha] at hclose hkeeps hfound
    refine ⟨{ c with region := region' }, _, ?_, ⟨rfl, rfl⟩, hkeeps,
      hcounts.of_same hpending.symm, hfound⟩
    intro window ties
    unfold closeRun
    simp [Word.sub_eq_ok (show 1 ≤ stop by omega), hbyte, Progress.updateWith, Core.on, hplace,
      hclose, Checked.pure_eq]

theorem settleRun_spec (hs : s.Over stream resume)
    (hk : s.program.Keeps base c.region states entries)
    (hcounts : c.pending.Counts s.program.repeats.toList states) (hr : r ∈ s.program.repeats)
    (hlatest : r.Latest stream s.input.stop s.isFinal upto reported first stop)
    (hlast : last = min stop s.input.stop) (hst : states r = ⟨some last, last - first, none⟩)
    (hfloor : s.input.floor < last) :
    ∃ c' st, (∀ window ties, s.settleRun (c.on window ties) (s.program.layout.place r) last
        (decide (s.input.stop ≤ last)) = .ok (c'.on window ties)) ∧
      s.Settles stream base upto c reported states entries r c' st := by
  have hrun := hlatest.finds.isRun
  by_cases hopen : s.input.stop ≤ last ∧ s.isFinal = false
  · obtain ⟨hreach, hfinal⟩ := hopen
    obtain rfl : last = s.input.stop := by omega
    refine ⟨c, states r, ?_, .refl c, ?_, hcounts.of_same rfl, ?_⟩
    · intro window ties
      simp [settleRun, hfinal, Checked.pure_eq]
    · rwa [Function.update_eq_self]
    · rw [hst, hfinal]
      rw [hfinal] at hlatest
      exact hlatest.found_open (by omega)
  · -- The run ends before the end of the chunk, or nothing follows the chunk.
    have hended : Repeat.Ended s.input.stop s.isFinal stop ∧ last = stop := by
      rcases hfinal : s.isFinal with _ | _
      · have hlt : last < s.input.stop := Nat.lt_of_not_le fun h => hopen ⟨h, hfinal⟩
        exact ⟨Or.inl (by omega), by omega⟩
      · have hle := hrun.le_size
        have hsize := hs.final_eq hfinal
        exact ⟨Or.inr rfl, by omega⟩
    obtain ⟨hended, rfl⟩ := hended
    obtain ⟨c', st, hclose, hsettles⟩ := closeRun_spec hs hk hcounts hr hlatest hst hended
      (by omega) hfloor
    refine ⟨c', st, ?_, hsettles⟩
    intro window ties
    rw [← hclose window ties]
    unfold settleRun
    refine if_neg fun h => hopen ?_
    simpa using h

/-- A run goes on up to the last byte that is known of it, and is settled there. -/
theorem extendRun_settleRun_spec (hs : s.Over stream resume)
    (hk : s.program.Keeps base c.region states entries)
    (hcounts : c.pending.Counts s.program.repeats.toList states) (hr : r ∈ s.program.repeats)
    (hlatest : r.Latest stream s.input.stop s.isFinal upto reported first stop)
    (hlast : last = min stop s.input.stop) (hle : n ≤ last)
    (hst : (states r).extend n last = ⟨some last, last - first, none⟩)
    (hopen : 0 < (states r).length → (states r).lastEnd.getD 0 + n = last)
    (hzero : n = 0 → (states r).lastEnd = some last) (hfloor : s.input.floor < last) :
    ∃ (mid c' : Core) (st : RunState), (∀ window ties,
        extendRun (c.on window ties) (s.program.layout.place r) n last = .ok (mid.on window ties)) ∧
      (∀ window ties, s.settleRun (mid.on window ties) (s.program.layout.place r) last
        (decide (s.input.stop ≤ last)) = .ok (c'.on window ties)) ∧
      s.Settles stream base upto c reported states entries r c' st := by
  have hsize := hs.size_lt
  have hstop := hs.stop_le
  have hlargest : Word.largest = 0xFFFFFFFFFFFFFFFF := rfl
  obtain ⟨region', hextend, hkeeps⟩ := extendRun_spec hs.sound hk hr hle (by omega) hopen hzero
  have hst' : Function.update states r ((states r).extend n last) r =
      ⟨some last, last - first, none⟩ := by
    rw [Function.update_self, hst]
  obtain ⟨c', st, hsettle, hsettles⟩ := settleRun_spec (c := { c with region := region' }) hs
    hkeeps (hcounts.of_same rfl) hr hlatest hlast hst' hfloor
  have hkeeps' := hsettles.keeps
  have hcounts' := hsettles.counts
  rw [Function.update_idem] at hkeeps' hcounts'
  have hsilent : c.Silent { c with region := region' } := ⟨rfl, rfl⟩
  exact ⟨{ c with region := region' }, c', st, hextend, hsettle,
    hsilent.trans hsettles.silent, hkeeps', hcounts', hsettles.found⟩

/-- A repeat whose state stays as it is. -/
theorem Settles.refl (hk : s.program.Keeps base c.region states entries)
    (hcounts : c.pending.Counts s.program.repeats.toList states)
    (hfound : r.Found stream s.input.stop s.isFinal upto reported (states r)) :
    s.Settles stream base upto c reported states entries r c (states r) := by
  refine ⟨.refl c, ?_, hcounts.of_same rfl, hfound⟩
  rwa [Function.update_eq_self]

/-! ## Repeats one after the other -/

/-- The repeats are gone through one after the other. The states of those that are left
have one property, the states of all others have another. -/
structure Midway (s : Scan) (Before After : Repeat → RunState → Prop) (left : List Repeat)
    (states : Repeat → RunState) : Prop where
  mem_repeats : ∀ r ∈ left, r ∈ s.program.repeats
  nodup : left.Nodup
  before : ∀ r ∈ left, Before r (states r)
  after : ∀ r ∈ s.program.repeats, r ∉ left → After r (states r)

section Midway

variable {Before After : Repeat → RunState → Prop}

theorem Midway.start (hp : s.program.Sound) (h : ∀ r ∈ s.program.repeats, Before r (states r)) :
    s.Midway Before After s.program.repeats.toList states :=
  ⟨fun _ hr => Array.mem_toList_iff.mp hr, hp.nodup_repeats,
    fun r hr => h r (Array.mem_toList_iff.mp hr),
    fun _ hr hnot => absurd (Array.mem_toList_iff.mpr hr) hnot⟩

/-- The first repeat that is left is dealt with. -/
theorem Midway.next {left : List Repeat} {st : RunState}
    (h : s.Midway Before After (r :: left) states) (hst : After r st) :
    s.Midway Before After left (Function.update states r st) := by
  obtain ⟨hnotin, hnodup⟩ := List.nodup_cons.mp h.nodup
  refine ⟨fun r' hr' => h.mem_repeats r' (List.mem_cons_of_mem r hr'), hnodup,
    fun r' hr' => ?_, fun r' hr' hnot => ?_⟩
  · have hne : r' ≠ r := by
      rintro rfl
      exact hnotin hr'
    rw [Function.update_of_ne hne]
    exact h.before r' (List.mem_cons_of_mem r hr')
  · by_cases heq : r' = r
    · subst heq
      rwa [Function.update_self]
    · rw [Function.update_of_ne heq]
      exact h.after r' hr' (by simp [heq, hnot])

end Midway

/-! ## Runs that were open -/

/-- A run that was open when the chunk came. -/
theorem extendOpenRuns_of_open (hs : s.Over stream resume)
    (hk : s.program.Keeps base c.region states entries)
    (hcounts : c.pending.Counts s.program.repeats.toList states) (hr : r ∈ s.program.repeats)
    (hfound : r.Found stream s.input.chunkStart false upto reported (states r))
    (hpos : 0 < (states r).length) :
    ∃ c' st, (∀ window ties rest,
        s.extendOpenRuns (c.on window ties) (s.program.layout.place r :: rest) =
          s.extendOpenRuns (c'.on window ties) rest) ∧
      s.Settles stream base upto c reported states entries r c' st := by
  have hstart : s.input.chunkStart ≤ s.input.stop := Nat.le_add_right _ _
  obtain ⟨first, stop, hfirst, hstop, hst, hlatest⟩ :=
    hfound.latest_of_open hpos hstart s.isFinal
  obtain ⟨n, hn, hle, hstops⟩ := Input.leading_spec hs.shows r.allowed hs.size_lt_sizeBound
  have hlast := hlatest.finds.isRun.min_eq hstops ⟨Nat.le_of_lt hfirst, hstop⟩ hs.stop_le
  have hsize := hs.size_lt
  have hend := hs.stop_le
  have hinput : s.input.stop = s.input.chunkStart + s.input.data.size := rfl
  have hbound : Word.bound = 0x10000000000000000 := rfl
  have hfloor := hs.floor_eq
  have hhistory := hs.historySize_pos
  have hst' : (states r).extend n (s.input.chunkStart + n) =
      ⟨some (s.input.chunkStart + n), s.input.chunkStart + n - first, none⟩ := by
    rw [hst, RunState.extend]
    simp only [RunState.mk.injEq, true_and, and_true]
    omega
  obtain ⟨mid, c', st, hextend, hsettle, hsettles⟩ := extendRun_settleRun_spec hs hk hcounts hr
    hlatest hlast (Nat.le_add_left _ _) hst' (fun _ => by rw [hst]; rfl)
    (fun hzero => by rw [hst, hzero]; rfl) (by omega)
  refine ⟨c', st, fun window ties rest => ?_, hsettles⟩
  have hreach : decide (s.input.data.size ≤ n) =
      decide (s.input.stop ≤ s.input.chunkStart + n) := by
    congr 1
    simp only [eq_iff_iff]
    omega
  have hplace : (s.program.layout.place r).rep = r := rfl
  have hisOpen := (hk.tracks r hr).isOpen_eq (hs.sound.trackable r hr)
  rw [extendOpenRuns]
  simp only [Core.on] at hisOpen hextend hsettle ⊢
  simp only [hisOpen, hpos, decide_true, if_true, hplace, hn, Checked.ok_bind,
    Word.add_eq_ok (show s.input.chunkStart + n < Word.bound by omega), hextend, hreach, hsettle]

/-- A repeat goes from what was found before the chunk to what is found with its
bytes. -/
theorem extendOpenRuns_cons (hs : s.Over stream resume)
    (hk : s.program.Keeps base c.region states entries)
    (hcounts : c.pending.Counts s.program.repeats.toList states) (hr : r ∈ s.program.repeats)
    (hfound : r.Found stream s.input.chunkStart false upto reported (states r)) :
    ∃ c' st, (∀ window ties rest,
        s.extendOpenRuns (c.on window ties) (s.program.layout.place r :: rest) =
          s.extendOpenRuns (c'.on window ties) rest) ∧
      s.Settles stream base upto c reported states entries r c' st := by
  by_cases hpos : 0 < (states r).length
  · exact extendOpenRuns_of_open hs hk hcounts hr hfound hpos
  · refine ⟨c, states r, fun window ties rest => ?_, .refl hk hcounts
      (hfound.of_closed (by omega) (Nat.le_add_right _ _) s.isFinal)⟩
    have hisOpen := (hk.tracks r hr).isOpen_eq (hs.sound.trackable r hr)
    rw [extendOpenRuns]
    simp only [Core.on] at hisOpen ⊢
    simp only [hisOpen, hpos, decide_false, Bool.false_eq_true, if_false]

/-- Each repeat goes from what was found before the chunk to what is found with
its bytes. -/
theorem extendOpenRuns_spec (hs : s.Over stream resume)
    (hk : s.program.Keeps base c.region states entries)
    (hcounts : c.pending.Counts s.program.repeats.toList states) {left : List Repeat}
    (h : s.Midway (·.Found stream s.input.chunkStart false upto reported)
      (·.Found stream s.input.stop s.isFinal upto reported) left states) :
    ∃ (c' : Core) (states' : Repeat → RunState), (∀ window ties,
        s.extendOpenRuns (c.on window ties) (left.map s.program.layout.place) =
          .ok (c'.on window ties)) ∧
      c.Silent c' ∧ s.program.Keeps base c'.region states' entries ∧
      c'.pending.Counts s.program.repeats.toList states' ∧
      ∀ r ∈ s.program.repeats, r.Found stream s.input.stop s.isFinal upto reported (states' r) := by
  induction left generalizing c states with
  | nil => exact ⟨c, states, fun _ _ => rfl, .refl c, hk, hcounts,
      fun r hr => h.after r hr List.not_mem_nil⟩
  | cons r rest ih =>
    obtain ⟨c₁, st, hextend, hsettles⟩ := extendOpenRuns_cons hs hk hcounts
      (h.mem_repeats r List.mem_cons_self) (h.before r List.mem_cons_self)
    obtain ⟨c', states', hrest, hsilent, hpost⟩ :=
      ih hsettles.keeps hsettles.counts (h.next hsettles.found)
    refine ⟨c', states', ?_, hsettles.silent.trans hsilent, hpost⟩
    intro window ties
    rw [← hrest window ties, List.map_cons, hextend]

/-! ## Candidates that start a run -/

/-- A byte of the class of a repeat is a candidate for that repeat alone. -/
theorem Point.pass_trigger {r' : Repeat} (hs : s.Over stream resume) (hr : r ∈ s.program.repeats)
    (hb : r.allowed.contains (byteAt stream first) = true) (hr' : r' ∈ s.program.repeats)
    (hne : r' ≠ r) {stop : Nat}
    (hf : r'.Finds stream (r.keyAt stream (first + 1)).next n stop) :
    r'.Finds stream (r.keyAt stream (first + 1)) n stop := by
  have hb' : r.allowed.contains (byteAt stream (first + 1 - 1)) = true := hb
  have hn : r'.allowed.contains (byteAt stream (n + 1 - 1)) = true :=
    hf.isRun.inside n (Nat.le_refl n) hf.isRun.lt
  refine ⟨hf.isRun, lt_of_le_of_ne (Key.lt_next_iff.mp hf.trigger) fun heq => hne ?_⟩
  exact (hs.sound.keyAt_inj hr' hr hn hb' heq).1

/-- A byte of the class of a repeat is passed when that repeat is settled. -/
theorem Point.pass_settled (hs : s.Over stream resume) (hr : r ∈ s.program.repeats)
    (h : s.Point stream base past (r.keyAt stream (first + 1)) c reported states)
    (hb : r.allowed.contains (byteAt stream first) = true) (hlt : first < s.input.stop)
    {c' : Core} {st : RunState}
    (hsettles : s.Settles stream base (r.keyAt stream (first + 1)).next c reported states
      (s.program.entryAfter (s.program.kept reported)) r c' st) :
    s.Point stream base past (r.keyAt stream (first + 1)).next c' reported
      (Function.update states r st) := by
  have hb' : r.allowed.contains (byteAt stream (first + 1 - 1)) = true := hb
  have hnext : (r.keyAt stream (first + 1)).next ≤ ⟨s.input.stop + 1, 0⟩ := by
    simp only [Key.le_def, Key.next, Repeat.keyAt]
    omega
  refine ⟨hsettles.keeps, ?_, h.ordered, fun m hm => lt_trans (h.below m hm) (Key.lt_next _), ?_,
    h.tells.of_silent hsettles.silent⟩
  · intro r' hr'
    by_cases heq : r' = r
    · subst heq
      rw [Function.update_self]
      exact hsettles.found
    · rw [Function.update_of_ne heq]
      exact (h.found r' hr').raise (le_of_lt (Key.lt_next _)) hnext
        fun a b => Point.pass_trigger hs hr hb hr' heq
  · intro m hm
    rw [h.literals m hm]
    exact ⟨fun hlt' => lt_trans hlt' (Key.lt_next _), fun hlt' =>
      lt_of_le_of_ne (Key.lt_next_iff.mp hlt') (hs.sound.literal_key_ne hm hr hb')⟩

/-- A byte that does not belong to the last run starts a new one. -/
theorem startRun_of_new (hs : s.Over stream resume) {id : RepeatId}
    (hget : s.program.repeats[id.toNat]? = some r)
    (h : s.Point stream base past (r.keyAt stream (first + 1)) c reported states)
    (hcounts : c.pending.Counts s.program.repeats.toList states)
    (hwaits : ∀ m, (states r).pending = some m → r.keyAt stream (first + 1) ≤ m.key)
    (hb : r.allowed.contains (byteAt stream first) = true) (hlt : first < s.input.stop)
    (hfloor : s.input.floor ≤ first)
    (hafter : ∀ last, (states r).lastEnd = some last → last ≤ first) :
    ∃ c' st,
      (∀ window ties, s.startRun (c.on window ties) id (first + 1) = .ok (c'.on window ties)) ∧
      s.Settles stream base (r.keyAt stream (first + 1)).next c reported states
        (s.program.entryAfter (s.program.kept reported)) r c' st := by
  have hr : r ∈ s.program.repeats := Array.mem_of_getElem? hget
  have hlastEnd := (h.keeps.tracks r hr).lastEnd_eq
  have htracker : s.program.layout.tracker r c.region = .ok (s.program.layout.place r) :=
    Layout.tracker_eq_place hs.sound.layout hr h.keeps.size_eq
  have hsize := hs.size_lt
  have hend := hs.stop_le
  have hinput : s.input.stop = s.input.chunkStart + s.input.data.size := rfl
  have hbound : Word.bound = 0x10000000000000000 := rfl
  obtain ⟨stop, hlength, hpending, hlatest⟩ :=
    (h.found r hr).latest_of_start hlt hend hb hafter hwaits
  have hpos := hlatest.finds.isRun.lt
  obtain ⟨n, hn, hstops⟩ := Input.runLength_spec hs.shows r.allowed hfloor (Nat.le_of_lt hlt)
    hs.size_lt_sizeBound
  have hlast :=
    hlatest.finds.isRun.min_eq hstops ⟨Nat.le_refl _, Nat.le_of_lt hpos⟩ hend
  have hst : (states r).extend n (first + n) = ⟨some (first + n), first + n - first, none⟩ := by
    rw [RunState.extend, hlength, hpending]
    simp only [RunState.mk.injEq, true_and, and_true]
    omega
  obtain ⟨mid, c', st, hextend, hsettle, hsettles⟩ := extendRun_settleRun_spec hs h.keeps hcounts
    hr hlatest hlast (Nat.le_add_left _ _) hst (fun hopen => by omega) (fun hzero => by omega)
    (by omega)
  refine ⟨c', st, fun window ties => ?_, hsettles⟩
  unfold startRun
  simp only [Core.on] at hextend hsettle ⊢
  simp only [hget, Checked.some?, Checked.ok_bind, htracker, hlastEnd]
  rcases hsome : (states r).lastEnd with _ | last
  · simp only [Bool.false_eq_true, if_false, Word.sub_eq_ok (show 1 ≤ first + 1 by omega),
      Nat.add_sub_cancel, hn, Checked.ok_bind,
      Word.add_eq_ok (show first + n < Word.bound by omega), hextend, hs.chunkEnd_eq, hsettle]
  · have hle := hafter last hsome
    simp only [decide_eq_false (show ¬first + 1 ≤ last by omega), Bool.false_eq_true, if_false,
      Word.sub_eq_ok (show 1 ≤ first + 1 by omega), Nat.add_sub_cancel, hn, Checked.ok_bind,
      Word.add_eq_ok (show first + n < Word.bound by omega), hextend, hs.chunkEnd_eq, hsettle]

/-- A candidate that is a byte of the class of a repeat starts a run, unless the
byte belongs to the last one. -/
theorem startRun_spec (hs : s.Over stream resume) {id : RepeatId}
    (hget : s.program.repeats[id.toNat]? = some r)
    (h : s.Point stream base past (r.keyAt stream (first + 1)) c reported states)
    (hcounts : c.pending.Counts s.program.repeats.toList states)
    (hwaits : ∀ m, (states r).pending = some m → r.keyAt stream (first + 1) ≤ m.key)
    (hb : r.allowed.contains (byteAt stream first) = true) (hlt : first < s.input.stop)
    (hfloor : s.input.floor ≤ first) :
    ∃ (c' : Core) (states' : Repeat → RunState),
      (∀ window ties, s.startRun (c.on window ties) id (first + 1) = .ok (c'.on window ties)) ∧
      s.Point stream base past (r.keyAt stream (first + 1)).next c' reported states' ∧
      c'.pending.Counts s.program.repeats.toList states' := by
  have hr : r ∈ s.program.repeats := Array.mem_of_getElem? hget
  by_cases hknown : ∃ last, (states r).lastEnd = some last ∧ first + 1 ≤ last
  · obtain ⟨last, hsome, hle⟩ := hknown
    have hlastEnd := (h.keeps.tracks r hr).lastEnd_eq
    have htracker : s.program.layout.tracker r c.region = .ok (s.program.layout.place r) :=
      Layout.tracker_eq_place hs.sound.layout hr h.keeps.size_eq
    have hsettles := Settles.refl h.keeps hcounts ((h.found r hr).raise_of_known hlt hsome hle)
    refine ⟨c, _, fun window ties => ?_, h.pass_settled hs hr hb hlt hsettles, hsettles.counts⟩
    unfold startRun
    simp only [hget, Checked.some?, Checked.ok_bind, Core.on, htracker, hlastEnd, hsome,
      decide_eq_true hle, if_true, Checked.pure_eq]
  · have hafter : ∀ last, (states r).lastEnd = some last → last ≤ first :=
      fun last hsome => Nat.le_of_not_lt fun hlt' => hknown ⟨last, hsome, hlt'⟩
    obtain ⟨c', st, hstart, hsettles⟩ :=
      startRun_of_new hs hget h hcounts hwaits hb hlt hfloor hafter
    exact ⟨c', _, hstart, h.pass_settled hs hr hb hlt hsettles, hsettles.counts⟩

/-! ## Candidates that wait -/

theorem hasOpenRunBefore_eq_false {region : Bytes} {key : Key} {b : UInt8}
    {trackers : List Tracker} (h : hasOpenRunBefore region key last b trackers = false)
    {t : Tracker} (ht : t ∈ trackers) (hopen : t.isOpen region = true) :
    key ≤ ⟨last, t.rep.rankOf b⟩ := by
  have hnot := List.any_eq_false.mp h t ht
  rw [hopen, Bool.true_and, decide_eq_true_iff] at hnot
  exact le_of_not_gt hnot

/-- A candidate waits only if it ends with the chunk. If it does not wait, no
open run can match before it. -/
theorem waitsForOpenRun_spec (hs : s.Over stream resume)
    (h : s.Point stream base past upto c reported states) (key : Key)
    (hend : key.endsAt ≤ s.input.stop) :
    ∃ waits, (∀ window ties, s.waitsForOpenRun (c.on window ties) key = .ok waits) ∧
      (waits = true → s.isFinal = false ∧ key.endsAt = s.input.stop) ∧
      (waits = false → ∀ r ∈ s.program.repeats, 0 < (states r).length →
        ∀ stop, s.input.stop ≤ stop → key ≤ r.keyAt stream stop) := by
  unfold waitsForOpenRun
  rw [hs.chunkEnd_eq]
  simp only [Checked.ok_bind]
  by_cases hcond : s.isFinal = true ∨ key.endsAt ≠ s.input.stop ∨ s.input.stop = 0
  · refine ⟨false, fun window ties => if_pos hcond, fun hw => absurd hw (by simp), ?_⟩
    intro _ r hr hpos stop hstop
    obtain ⟨hfinal, -, -, first, -, -, -, hlength⟩ := (h.found r hr).isOpen hpos
    rcases hcond with hc | hc | hc
    · rw [hfinal] at hc
      cases hc
    · exact le_of_lt (Key.lt_of_endsAt_lt (by simp only [Repeat.keyAt]; omega))
    · omega
  · rw [not_or, not_or] at hcond
    obtain ⟨hfinal, hkey, hpos⟩ := hcond
    rw [Bool.not_eq_true] at hfinal
    rw [not_not] at hkey
    have hfloor := hs.floor_eq
    have hhistory := hs.historySize_pos
    have hinput : s.input.stop = s.input.chunkStart + s.input.data.size := rfl
    have hbyte := Input.byteAt_eq hs.shows
      (show s.input.floor ≤ s.input.stop - 1 by omega) (by omega)
    refine ⟨hasOpenRunBefore c.region key s.input.stop (byteAt stream (s.input.stop - 1))
      s.trackers, fun window ties => ?_, fun _ => ⟨hfinal, hkey⟩, ?_⟩
    · rw [if_neg (by simp [hfinal, hkey, hpos]), hbyte]
      rfl
    · intro hno r hr hopen stop hstop
      have htracker : s.program.layout.place r ∈ s.trackers := by
        rw [hs.trackers_eq]
        exact List.mem_map_of_mem (Array.mem_toList_iff.mpr hr)
      have hisOpen := (h.keeps.tracks r hr).isOpen_eq (hs.sound.trackable r hr)
      rw [decide_eq_true hopen] at hisOpen
      exact le_trans (hasOpenRunBefore_eq_false hno htracker hisOpen) (r.keyAt_le stream hstop)

end StreamMatch.Scan
