-- What a scan works on, apart from its buffers: the bytes of the stream state
-- stand for the run states of the repeats and the entries of the patterns, and
-- each operation changes one of them.
import Mathlib.Logic.Function.Basic
import StreamMatch.Proofs.Key
import StreamMatch.Proofs.Program.Build
import StreamMatch.Proofs.State.Fields
import StreamMatch.Scan

namespace StreamMatch

open Bytes

/-- The progress of a scan without the buffers. -/
structure Core where
  region : Bytes
  pending : Pending
  phase : Phase
  events : Array Event

/-- A progress with the given buffers. -/
def Core.on (c : Core) (window : Bytes) (ties : List Candidate) : Progress :=
  ⟨c.region, window, ties, c.pending, c.phase, c.events⟩

/-- Nothing is reported between two points, so no event waits for its answer at the second one
if none did at the first one. -/
structure Core.Silent (c c' : Core) : Prop where
  events_eq : c'.events = c.events
  phase_eq : c'.phase = c.phase

theorem Core.Silent.refl (c : Core) : c.Silent c := ⟨rfl, rfl⟩

theorem Core.Silent.trans {c c' c'' : Core} (h : c.Silent c') (h' : c'.Silent c'') :
    c.Silent c'' :=
  ⟨h'.events_eq.trans h.events_eq, h'.phase_eq.trans h.phase_eq⟩

/-- An operation leads to the same point and result with any buffers that are
large enough. -/
def Scan.Leads {α : Type} (s : Scan) (op : Progress → Checked (Progress × α)) (c c' : Core)
    (a : α) : Prop :=
  ∀ window ties, s.program.windowSize ≤ window.size →
    ∃ window' ties', window'.size = window.size ∧
      op (c.on window ties) = .ok (c'.on window' ties', a)

theorem Scan.leads_of_eq {α : Type} {s : Scan} {op : Progress → Checked (Progress × α)}
    {c c' : Core} {a : α} (h : ∀ window ties, op (c.on window ties) = .ok (c'.on window ties, a)) :
    s.Leads op c c' a := fun window ties _ => ⟨window, ties, rfl, h window ties⟩

/-- An operation that does something more before or after another one. -/
theorem Scan.Leads.andThen {α β : Type} {s : Scan} {op : Progress → Checked (Progress × α)}
    {op' : Progress → Checked (Progress × β)} {c d c' d' : Core} {a : α} {b : β}
    (h : s.Leads op c c' a)
    (hop : ∀ window ties window' ties', op (c.on window ties) = .ok (c'.on window' ties', a) →
      op' (d.on window ties) = .ok (d'.on window' ties', b)) : s.Leads op' d d' b := by
  intro window ties hwindow
  obtain ⟨window', ties', hsize, heq⟩ := h window ties hwindow
  exact ⟨window', ties', hsize, hop window ties window' ties' heq⟩

/-- One operation after another one. -/
theorem Scan.Leads.followedBy {α β γ : Type} {s : Scan} {op : Progress → Checked (Progress × α)}
    {op' : Progress → Checked (Progress × β)} {op'' : Progress → Checked (Progress × γ)}
    {c c₁ d c' d' : Core} {a : α} {b : β} {e : γ} (h : s.Leads op c c₁ a)
    (h' : s.Leads op' c₁ c' b)
    (hop : ∀ window ties window₁ ties₁ window' ties',
      op (c.on window ties) = .ok (c₁.on window₁ ties₁, a) →
      op' (c₁.on window₁ ties₁) = .ok (c'.on window' ties', b) →
      op'' (d.on window ties) = .ok (d'.on window' ties', e)) : s.Leads op'' d d' e := by
  intro window ties hwindow
  obtain ⟨window₁, ties₁, hsize₁, heq₁⟩ := h window ties hwindow
  obtain ⟨window', ties', hsize', heq'⟩ := h' window₁ ties₁ (by omega)
  exact ⟨window', ties', by omega, hop _ _ _ _ _ _ heq₁ heq'⟩

/-! ## The bytes of a stream state -/

/-- A state of a stream stands for the run states of the repeats and the entries
of the patterns, and agrees with `base` in all the other fields. -/
structure Program.Keeps (p : Program) (base region : Bytes) (states : Repeat → RunState)
    (entries : Nat → PatternEntry) : Prop where
  frame : AgreeOutside (32 + p.layout.historySize) (p.layout.size - (32 + p.layout.historySize))
    base region
  size_eq : region.size = p.layout.size
  tracks : ∀ r ∈ p.repeats, (p.layout.place r).Tracks region (states r)
  entry : ∀ i, i < p.patterns.size → StreamState.entryOf p.layout region i = entries i

/-- Two states agree in the fields of a fixed size, apart from the resume key, and
in the history. -/
structure Program.SameHeader (p : Program) (a b : Bytes) : Prop where
  size_eq : b.size = a.size
  same : ∀ i, i < 16 ∨ 28 ≤ i ∧ i < 32 + p.layout.historySize → byteAt b i = byteAt a i

namespace Program.SameHeader

variable {p : Program} {a b c : Bytes} {pos len width : Nat}

theorem trans (hab : p.SameHeader a b) (hbc : p.SameHeader b c) : p.SameHeader a c :=
  ⟨hbc.size_eq.trans hab.size_eq, fun i hi => (hbc.same i hi).trans (hab.same i hi)⟩

theorem of_frame (h : AgreeOutside (32 + p.layout.historySize) len a b) : p.SameHeader a b :=
  ⟨h.size_eq, fun i hi => h.same i (by omega)⟩

theorem of_resume (h : AgreeOutside 16 12 a b) : p.SameHeader a b :=
  ⟨h.size_eq, fun i hi => h.same i (by omega)⟩

theorem readNumber_eq (h : p.SameHeader a b)
    (hpos : pos + width ≤ 16 ∨ 28 ≤ pos ∧ pos + width ≤ 32 + p.layout.historySize) :
    readNumber b pos width = readNumber a pos width :=
  readNumber_congr fun i hi => h.same (pos + i) (by omega)

end Program.SameHeader

namespace Program.Keeps

variable {p : Program} {base region region' : Bytes} {states : Repeat → RunState}
  {entries : Nat → PatternEntry} {r : Repeat} {st : RunState} {i : Nat} {e : PatternEntry}

theorem patternAt_le (hp : p.Sound) (hi : i < p.patterns.size) :
    Layout.patternAt p.layout.historySize i + 8 ≤
      Layout.patternAt p.layout.historySize p.layout.patternCount := by
  rw [hp.patternCount]
  unfold Layout.patternAt
  omega

theorem pattern_eq (hp : p.Sound) (h : p.Keeps base region states entries)
    (hi : i < p.patterns.size) : StreamState.pattern p.layout region i = .ok (entries i) := by
  have hle := patternAt_le hp hi
  have hsize := hp.layout.patterns_le
  rw [StreamState.pattern_eq (by rw [h.size_eq]; omega), h.entry i hi]

/-- A change before the entries of the patterns does not matter to them. -/
theorem rebase (hp : p.Sound) (h : p.Keeps base region states entries) {pos len : Nat}
    (ha : AgreeOutside pos len region region') (hle : pos + len ≤ 32 + p.layout.historySize) :
    p.Keeps region' region' states entries := by
  refine ⟨AgreeOutside.refl _ _ _, ha.size_eq.trans h.size_eq, ?_, ?_⟩
  · intro r hr
    have hbefore := hp.layout.patterns_before r hr
    unfold Layout.patternAt Layout.historyAt at hbefore
    exact (h.tracks r hr).frame ha (Or.inr (by omega))
  · intro i hi
    rw [← h.entry i hi]
    refine StreamState.entryOf_frame ha (Or.inr ?_)
    unfold Layout.patternAt Layout.historyAt
    omega

/-- The state of one repeat changes. -/
theorem setState (hp : p.Sound) (h : p.Keeps base region states entries) (hr : r ∈ p.repeats)
    (ha : AgreeOutside (p.layout.place r).base r.stateSize region region')
    (ht : (p.layout.place r).Tracks region' st) :
    p.Keeps base region' (Function.update states r st) entries := by
  have hbefore := hp.layout.patterns_before r hr
  have hinside := hp.layout.inside r hr
  refine ⟨h.frame.trans (ha.mono ?_ ?_), ha.size_eq.trans h.size_eq, ?_, ?_⟩
  · unfold Layout.patternAt Layout.historyAt at hbefore
    omega
  · omega
  · intro r' hr'
    by_cases heq : r' = r
    · subst heq
      rwa [Function.update_self]
    · rw [Function.update_of_ne heq]
      exact (h.tracks r' hr').frame ha (hp.layout.apart r' hr' r hr heq)
  · intro i hi
    have hle := patternAt_le hp hi
    rw [StreamState.entryOf_frame ha (by omega), h.entry i hi]

/-- The entry of one pattern changes. -/
theorem setEntry (hp : p.Sound) (h : p.Keeps base region states entries)
    (hi : i < p.patterns.size)
    (ha : AgreeOutside (Layout.patternAt p.layout.historySize i) 8 region region')
    (he : StreamState.entryOf p.layout region' i = e) :
    p.Keeps base region' states (Function.update entries i e) := by
  have hle := patternAt_le hp hi
  have hsize := hp.layout.patterns_le
  refine ⟨h.frame.trans (ha.mono ?_ ?_), ha.size_eq.trans h.size_eq, ?_, ?_⟩
  · unfold Layout.patternAt Layout.historyAt
    omega
  · omega
  · intro r hr
    have hbefore := hp.layout.patterns_before r hr
    exact (h.tracks r hr).frame ha (Or.inr (by omega))
  · intro j hj
    by_cases heq : j = i
    · subst heq
      rwa [Function.update_self]
    · rw [Function.update_of_ne heq, ← h.entry j hj]
      refine StreamState.entryOf_frame ha ?_
      unfold Layout.patternAt
      omega

/-- The entry of one pattern is written down. -/
theorem exists_setPattern (hp : p.Sound) (h : p.Keeps base region states entries)
    (hi : i < p.patterns.size) {last : Nat} (hlast : last + 1 < PatternEntry.exhaustedBit)
    (exhausted : Bool) :
    ∃ region', StreamState.setPattern p.layout region i ⟨some last, exhausted⟩ = .ok region' ∧
      p.Keeps base region' states (Function.update entries i ⟨some last, exhausted⟩) := by
  have hle := patternAt_le hp hi
  have hsize := hp.layout.patterns_le
  have hfits : Layout.patternAt p.layout.historySize i + 8 ≤ region.size := by
    rw [h.size_eq]
    omega
  have hlast' : ∀ e, (⟨some last, exhausted⟩ : PatternEntry).lastEnd = some e →
      e + 1 < PatternEntry.exhaustedBit := by
    rintro _ ⟨⟩
    exact hlast
  obtain ⟨region', hset, hagree, hwritten⟩ := StreamState.setPattern_spec hfits hlast'
  exact ⟨region', hset, h.setEntry hp hi hagree hwritten⟩

end Program.Keeps

/-! ## Pending matches -/

namespace Pending

/-- A scan knows how many repeats have a pending match, and a key that none of
the matches goes before. -/
structure Counts (pending : Pending) (repeats : List Repeat) (states : Repeat → RunState) :
    Prop where
  count_eq : pending.count = repeats.countP fun r => (states r).pending.isSome
  earliest_le : ∀ r ∈ repeats, ∀ m, (states r).pending = some m → pending.earliest ≤ m.key

variable {pending : Pending} {repeats : List Repeat} {states : Repeat → RunState} {r : Repeat}
  {st : RunState}

/-- The state of one repeat counts once. -/
theorem countP_update (states : Repeat → RunState) (st : RunState) (hnodup : repeats.Nodup)
    (hr : r ∈ repeats) :
    (repeats.countP fun x => (Function.update states r st x).pending.isSome) +
        (if (states r).pending.isSome then 1 else 0) =
      (repeats.countP fun x => (states x).pending.isSome) +
        if st.pending.isSome then 1 else 0 := by
  induction repeats with
  | nil => exact absurd hr List.not_mem_nil
  | cons x rest ih =>
    obtain ⟨hx, hrest⟩ := List.nodup_cons.mp hnodup
    rw [List.countP_cons, List.countP_cons]
    by_cases heq : x = r
    · subst heq
      have hsame : ∀ y ∈ rest, Function.update states x st y = states y := by
        intro y hy
        refine Function.update_of_ne ?_ _ _
        rintro rfl
        exact hx hy
      have hcount : (rest.countP fun y => (Function.update states x st y).pending.isSome) =
          rest.countP fun y => (states y).pending.isSome :=
        List.countP_congr fun y hy => by rw [hsame y hy]
      rw [hcount, Function.update_self]
      omega
    · have hin := (List.mem_cons.mp hr).resolve_left (Ne.symm heq)
      have := ih hrest hin
      rw [Function.update_of_ne heq]
      omega

/-- One state less counts when a pending match is taken out. -/
theorem countP_take (hnodup : repeats.Nodup) (hr : r ∈ repeats) {m : Run}
    (hm : (states r).pending = some m) :
    (repeats.countP fun x => (Function.update states r (states r).take x).pending.isSome) + 1 =
      repeats.countP fun x => (states x).pending.isSome := by
  have hcount := countP_update states (states r).take hnodup hr
  have htake : (states r).take.pending = .none := rfl
  rwa [hm, htake, Option.isSome_some, Option.isSome_none, if_pos rfl, if_neg (by simp),
    Nat.add_zero] at hcount

theorem Counts.of_same (h : pending.Counts repeats states)
    (hp : st.pending = (states r).pending) :
    pending.Counts repeats (Function.update states r st) := by
  have hsame : ∀ x, (Function.update states r st x).pending = (states x).pending := by
    intro x
    by_cases heq : x = r
    · rw [heq, Function.update_self, hp]
    · rw [Function.update_of_ne heq]
  refine ⟨?_, ?_⟩
  · simp only [hsame]
    exact h.count_eq
  · intro x hx m hm
    rw [hsame] at hm
    exact h.earliest_le x hx m hm

theorem Counts.add (h : pending.Counts repeats states) (hnodup : repeats.Nodup) (hr : r ∈ repeats)
    {m : Run} (hnone : (states r).pending = .none) (hm : st.pending = some m) :
    (pending.add m.key).Counts repeats (Function.update states r st) := by
  refine ⟨?_, ?_⟩
  · have hcount := countP_update states st hnodup hr
    rw [hnone, hm, Option.isSome_none, Option.isSome_some, if_neg (by simp), if_pos rfl,
      Nat.add_zero] at hcount
    rw [hcount, Pending.add, h.count_eq]
  · intro x hx m' hm'
    simp only [Pending.add]
    by_cases heq : x = r
    · rw [heq, Function.update_self, hm, Option.some.injEq] at hm'
      subst hm'
      split
      · exact le_refl _
      · next hlt => exact le_of_not_gt hlt
    · rw [Function.update_of_ne heq] at hm'
      have hle := h.earliest_le x hx m' hm'
      split
      · next hlt => exact le_trans (le_of_lt hlt) hle
      · exact hle

end Pending

end StreamMatch
