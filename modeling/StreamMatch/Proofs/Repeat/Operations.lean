-- Sequences of operations on the state of a repeat. They answer what a tracker would that
-- just knows how many repetitions the current run received, where it ended and which match
-- is pending, so neither the tracking nor the steps in which a run was received show.
import StreamMatch.Proofs.Repeat.RunState

namespace StreamMatch

open Bytes

/-- An operation on the state of a repeat. -/
inductive Tracker.Operation where
  /-- The current run goes on, or a run starts, with `n` repetitions. The last one ends at
  `last`. -/
  | extend (n last : Nat)
  /-- The current run ends. -/
  | close (rank : UInt32)
  /-- The pending match is taken. -/
  | take
  /-- The state is the first one again. -/
  | reset
deriving DecidableEq, Repr

open Tracker (Operation)

/-! ## Operations on a run state -/

namespace RunState

variable (st : RunState) (r : Repeat)

/-- The run state after an operation. -/
def next : Operation → RunState
  | .extend n last => if n = 0 then st else st.extend n last
  | .close rank => st.close r rank.toNat
  | .take => st.take
  | .reset => start

/-- The match that an operation gives. -/
def answer : Operation → Option Run
  | .close rank => st.current r rank.toNat
  | .take => st.pending
  | .extend _ _ | .reset => none

/-- What callers promise. A run goes on where it ended, and a run is closed only after the
match of the one before was taken. -/
def Allows : Operation → Prop
  | .extend n last => 0 < n →
      n ≤ last ∧ last < Word.largest ∧ (0 < st.length → st.lastEnd.map (· + n) = some last)
  | .close _ => st.pending = none
  | .take | .reset => True

instance (op : Operation) : Decidable (st.Allows op) :=
  match op with
  | .extend n last => inferInstanceAs (Decidable (0 < n →
      n ≤ last ∧ last < Word.largest ∧ (0 < st.length → st.lastEnd.map (· + n) = some last)))
  | .close _ => inferInstanceAs (Decidable (st.pending = none))
  | .take => inferInstanceAs (Decidable True)
  | .reset => inferInstanceAs (Decidable True)

/-- The run state after some operations. -/
def after (ops : List Operation) : RunState := ops.foldl (fun st op => st.next r op) st

/-- The matches that some operations give, one after the other. -/
def answers (st : RunState) (r : Repeat) : List Operation → List (Option Run)
  | [] => []
  | op :: rest => st.answer r op :: answers (st.next r op) r rest

/-- Each of some operations is allowed when it is performed. -/
def AllowsEach (st : RunState) (r : Repeat) : List Operation → Prop
  | [] => True
  | op :: rest => st.Allows op ∧ AllowsEach (st.next r op) r rest

instance decidableAllowsEach (st : RunState) (r : Repeat) :
    (ops : List Operation) → Decidable (st.AllowsEach r ops)
  | [] => inferInstanceAs (Decidable True)
  | op :: rest =>
    have := decidableAllowsEach (st.next r op) r rest
    inferInstanceAs (Decidable (st.Allows op ∧ (st.next r op).AllowsEach r rest))

variable {st r} {ops rest : List Operation}

theorem next_extend (n last : Nat) :
    st.next r (.extend n last) = if n = 0 then st else st.extend n last := rfl

theorem after_append : st.after r (ops ++ rest) = (st.after r ops).after r rest :=
  List.foldl_append

theorem answers_append :
    st.answers r (ops ++ rest) = st.answers r ops ++ (st.after r ops).answers r rest := by
  induction ops generalizing st with
  | nil => rfl
  | cons op ops ih => exact congrArg (st.answer r op :: ·) ih

theorem length_answers : (st.answers r ops).length = ops.length := by
  induction ops generalizing st with
  | nil => rfl
  | cons op ops ih => exact congrArg (· + 1) ih

theorem allowsEach_append :
    st.AllowsEach r (ops ++ rest) ↔ st.AllowsEach r ops ∧ (st.after r ops).AllowsEach r rest := by
  induction ops generalizing st with
  | nil => exact (and_iff_right trivial).symm
  | cons op ops ih => exact (and_congr_right fun _ => ih).trans and_assoc.symm

/-! ## Other repeats with the same bounds -/

theorem current_congr {r' : Repeat} (hleast : r'.least = r.least) (hmost : r'.most = r.most)
    (rank : Nat) : st.current r' rank = st.current r rank := by
  rw [current_eq, current_eq]
  unfold Repeat.accepts
  rw [hleast, hmost]

theorem next_congr {r' : Repeat} (hleast : r'.least = r.least) (hmost : r'.most = r.most)
    (op : Operation) : st.next r' op = st.next r op := by
  cases op with
  | close rank =>
    unfold next close
    simp only [current_congr hleast hmost]
  | extend n last => rfl
  | take => rfl
  | reset => rfl

theorem answer_congr {r' : Repeat} (hleast : r'.least = r.least) (hmost : r'.most = r.most)
    (op : Operation) : st.answer r' op = st.answer r op := by
  cases op with
  | close rank => exact current_congr hleast hmost rank.toNat
  | extend n last => rfl
  | take => rfl
  | reset => rfl

theorem each_congr {r' : Repeat} (hleast : r'.least = r.least) (hmost : r'.most = r.most)
    (ops : List Operation) : st.after r' ops = st.after r ops ∧
      st.answers r' ops = st.answers r ops ∧ (st.AllowsEach r' ops ↔ st.AllowsEach r ops) := by
  induction ops generalizing st with
  | nil => exact ⟨rfl, rfl, Iff.rfl⟩
  | cons op ops ih =>
    obtain ⟨hafter, hanswers, hallows⟩ := @ih (st.next r op)
    have hnext : st.next r' op = st.next r op := next_congr hleast hmost op
    refine ⟨?_, ?_, ?_⟩
    · unfold after at hafter ⊢
      rw [List.foldl_cons, List.foldl_cons, hnext, hafter]
    · rw [answers, answers, answer_congr hleast hmost, hnext, hanswers]
    · rw [AllowsEach, AllowsEach, hnext, hallows]

/-! ## A run in steps -/

/-- How many repetitions some steps have together. -/
def total (ns : List Nat) : Nat := ns.foldr (· + ·) 0

/-- A run that is received in steps of the given sizes, from an offset on. -/
def inSteps (first : Nat) : List Nat → List Operation
  | [] => []
  | n :: rest => .extend n (first + n) :: inSteps (first + n) rest

/-- The same run, received at once. -/
def atOnce (first : Nat) (ns : List Nat) : Operation := .extend (total ns) (first + total ns)

variable {first : Nat} {ns : List Nat}

theorem total_cons (n : Nat) (rest : List Nat) : total (n :: rest) = n + total rest := rfl

theorem after_inSteps :
    st.after r (inSteps first ns) = st.next r (atOnce first ns) := by
  induction ns generalizing st first with
  | nil => rfl
  | cons n rest ih =>
    have hrest : st.after r (inSteps first (n :: rest)) =
        (st.next r (.extend n (first + n))).after r (inSteps (first + n) rest) := rfl
    unfold atOnce at ih ⊢
    rw [hrest, ih, total_cons, Nat.add_assoc, next_extend, next_extend, next_extend]
    by_cases hn : n = 0
    · rw [if_pos hn, hn, Nat.zero_add]
    · rw [if_neg hn, if_neg (show n + total rest ≠ 0 by omega)]
      by_cases hsum : total rest = 0
      · rw [if_pos hsum, hsum, Nat.add_zero]
      · rw [if_neg hsum]
        unfold extend
        rw [Nat.add_assoc]

theorem answers_inSteps : st.answers r (inSteps first ns) = ns.map fun _ => none := by
  induction ns generalizing st first with
  | nil => rfl
  | cons n rest ih => exact congrArg (none :: ·) ih

/-- If a run can be received at once, it can be received in steps. -/
theorem allowsEach_inSteps (h : st.Allows (atOnce first ns)) :
    st.AllowsEach r (inSteps first ns) := by
  induction ns generalizing st first with
  | nil => trivial
  | cons n rest ih =>
    unfold atOnce at h ih
    rw [total_cons] at h
    constructor
    · intro hn
      obtain ⟨-, hlt, hopen⟩ := h (by omega)
      refine ⟨Nat.le_add_left n first, by omega, fun ho => ?_⟩
      obtain ⟨last, hlast, hsum⟩ := Option.map_eq_some_iff.mp (hopen ho)
      rw [hlast, show last = first by omega]
      rfl
    · refine ih fun hrest => ?_
      obtain ⟨-, hlt, hopen⟩ := h (by omega)
      refine ⟨Nat.le_add_left _ _, by omega, fun ho => ?_⟩
      rw [next_extend] at ho ⊢
      by_cases hn : n = 0
      · rw [if_pos hn] at ho ⊢
        rw [hn, Nat.zero_add] at hopen
        rw [hn]
        exact hopen ho
      · rw [if_neg hn]
        rfl

end RunState

namespace Tracker

variable {t : Tracker} {s : Bytes} {st : RunState}

/-! ## Operations on the bytes of a state -/

/-- Performs an operation, which can give a match. -/
def perform (t : Tracker) (s : Bytes) : Operation → Checked (Bytes × Option Run)
  | .extend n last => do return (← t.extend s n last, none)
  | .close rank => t.close s rank.toNat
  | .take => t.take s
  | .reset => return (t.reset s, none)

/-- Performs operations in order. -/
def performEach (t : Tracker) (s : Bytes) : List Operation → Checked (Bytes × List (Option Run))
  | [] => return (s, [])
  | op :: rest => do
    let (s, answer) ← t.perform s op
    let (s, answers) ← t.performEach s rest
    return (s, answer :: answers)

theorem reset_spec (hfits : t.base + t.rep.stateSize ≤ s.size) (hr : t.rep.Trackable) :
    AgreeOutside t.base t.rep.stateSize s (t.reset s) ∧ t.Tracks (t.reset s) .start := by
  unfold reset
  have ha := agreeOutside_clear s t.base t.rep.stateSize
  refine ⟨ha, tracks_of_zeros ?_ hr fun i hi hlt => byteAt_clear ⟨hi, hlt⟩⟩
  rwa [ha.size_eq]

theorem extend_zero (t : Tracker) (s : Bytes) (last : Nat) : t.extend s 0 last = .ok s := by
  unfold extend
  rw [if_pos rfl]
  rfl

theorem perform_extend (t : Tracker) (s : Bytes) (n last : Nat) :
    t.perform s (.extend n last) = (do return (← t.extend s n last, none)) := rfl

/-- An operation that is allowed does on the bytes what it does on the run state. -/
theorem perform_spec (h : t.Tracks s st) (hr : t.rep.Trackable) {op : Operation}
    (hop : st.Allows op) :
    ∃ s', t.perform s op = .ok (s', st.answer t.rep op) ∧
      AgreeOutside t.base t.rep.stateSize s s' ∧ t.Tracks s' (st.next t.rep op) := by
  cases op with
  | extend n last =>
    rw [RunState.next_extend, perform_extend]
    by_cases hn : n = 0
    · refine ⟨s, ?_, AgreeOutside.refl _ _ s, by rwa [if_pos hn]⟩
      rw [hn, extend_zero]
      rfl
    · obtain ⟨hle, hlt, hopen⟩ := hop (Nat.pos_of_ne_zero hn)
      have hends : 0 < st.length → st.lastEnd.getD 0 + n = last := by
        intro ho
        obtain ⟨e, he, hlast⟩ := Option.map_eq_some_iff.mp (hopen ho)
        rw [he, Option.getD_some, hlast]
      obtain ⟨s', hs', ha, ht⟩ := extend_spec h hr (Nat.pos_of_ne_zero hn) hle hlt hends
      refine ⟨s', ?_, ha, by rwa [if_neg hn]⟩
      rw [hs']
      rfl
  | close rank => exact close_spec h hr rank.toNat_lt fun _ => hop
  | take => exact take_spec h
  | reset => exact ⟨t.reset s, rfl, reset_spec h.fits hr⟩

theorem performEach_spec (h : t.Tracks s st) (hr : t.rep.Trackable) {ops : List Operation}
    (hops : st.AllowsEach t.rep ops) :
    ∃ s', t.performEach s ops = .ok (s', st.answers t.rep ops) ∧
      AgreeOutside t.base t.rep.stateSize s s' ∧ t.Tracks s' (st.after t.rep ops) := by
  induction ops generalizing s st with
  | nil => exact ⟨s, rfl, AgreeOutside.refl _ _ s, h⟩
  | cons op rest ih =>
    obtain ⟨s₁, h₁, a₁, t₁⟩ := perform_spec h hr hops.1
    obtain ⟨s₂, h₂, a₂, t₂⟩ := ih t₁ hops.2
    refine ⟨s₂, ?_, a₁.trans a₂, t₂⟩
    rw [performEach, h₁]
    simp only [Checked.ok_bind, h₂]
    rfl

/-! ## What a state tells -/

/-- What the state of a repeat tells when the current run received `st.length` repetitions, the
last of them ending at `st.lastEnd`. -/
structure Tells (t : Tracker) (s : Bytes) (st : RunState) : Prop where
  runLength : t.runLength s =
    match t.rep.most.value? with
    | some most => min st.length (most + 1)
    | none => st.length
  isOpen : t.isOpen s = true ↔ 0 < st.length
  isSatisfied : ∃ satisfied, t.isSatisfied s = .ok satisfied ∧
    (satisfied = true ↔ t.rep.Within st.length)
  runEnd : t.runEnd? s = st.lastEnd
  pending : t.pending? s = .ok st.pending
  close : ∀ rank : UInt32, st.pending = none → ∃ s',
    t.close s rank.toNat = .ok (s', st.current t.rep rank.toNat) ∧
      t.pending? s' = .ok (st.current t.rep rank.toNat) ∧ t.runLength s' = 0 ∧
      t.isOpen s' = false ∧ t.runEnd? s' = st.lastEnd
  take : ∃ s', t.take s = .ok (s', st.pending) ∧ t.pending? s' = .ok none ∧
    t.runLength s' = t.runLength s ∧ t.runEnd? s' = st.lastEnd

theorem Tracks.runLength_eq_match (h : t.Tracks s st) (hr : t.rep.Trackable) : t.runLength s =
    match t.rep.most.value? with
    | some most => min st.length (most + 1)
    | none => st.length := by
  have hlt := h.length_lt
  rw [h.runLength_eq hr]
  unfold Repeat.window
  rcases t.rep.most.value? with _ | most
  · exact Nat.min_eq_left (Nat.le_of_lt hlt)
  · rfl

theorem Tracks.tells (h : t.Tracks s st) (hr : t.rep.Trackable) : t.Tells s st := by
  refine ⟨h.runLength_eq_match hr, ?_, ?_, h.lastEnd_eq, h.pending_eq, fun rank hnone => ?_, ?_⟩
  · rw [h.isOpen_eq hr, decide_eq_true_iff]
  · exact ⟨_, h.isSatisfied_eq hr, Repeat.accepts_iff⟩
  · obtain ⟨s', hs', -, ht⟩ := close_spec h hr rank.toNat_lt fun _ => hnone
    refine ⟨s', hs', ?_, ?_, ?_, ht.lastEnd_eq⟩
    · rw [ht.pending_eq]
      unfold RunState.close
      rw [hnone, Option.or_none]
    · exact (ht.runLength_eq hr).trans (Nat.zero_min _)
    · exact (ht.isOpen_eq hr).trans (decide_eq_false (Nat.lt_irrefl 0))
  · obtain ⟨s', hs', -, ht⟩ := take_spec h
    refine ⟨s', hs', ht.pending_eq, ?_, ht.lastEnd_eq⟩
    rw [ht.runLength_eq hr, h.runLength_eq hr]
    rfl

variable {ops rest : List Operation}

/-- From the first state on, operations answer as they do on the run state, and so does the state
that they leave. -/
theorem performEach_reset (hr : t.rep.Trackable) (hfits : t.base + t.rep.stateSize ≤ s.size)
    (hops : RunState.start.AllowsEach t.rep ops) :
    ∃ s', t.performEach (t.reset s) ops = .ok (s', RunState.start.answers t.rep ops) ∧
      t.Tells s' (RunState.start.after t.rep ops) := by
  obtain ⟨s', hs', -, ht⟩ := performEach_spec (reset_spec hfits hr).2 hr hops
  exact ⟨s', hs', ht.tells hr⟩

/-- Repeats with the same bounds answer the same, whatever their trackings. -/
theorem performEach_congr {t' : Tracker} {z : Bytes} (hr : t.rep.Trackable)
    (hr' : t'.rep.Trackable) (hfits : t.base + t.rep.stateSize ≤ s.size)
    (hfits' : t'.base + t'.rep.stateSize ≤ z.size) (hleast : t'.rep.least = t.rep.least)
    (hmost : t'.rep.most = t.rep.most) (hops : RunState.start.AllowsEach t.rep ops) :
    ∃ s₁ s₂ answers st, t.performEach (t.reset s) ops = .ok (s₁, answers) ∧
      t'.performEach (t'.reset z) ops = .ok (s₂, answers) ∧ t.Tells s₁ st ∧ t'.Tells s₂ st := by
  obtain ⟨hafter, hanswers, hallows⟩ :=
    @RunState.each_congr .start t.rep t'.rep hleast hmost ops
  obtain ⟨s₁, h₁, tells₁⟩ := performEach_reset hr hfits hops
  obtain ⟨s₂, h₂, tells₂⟩ := performEach_reset hr' hfits' (hallows.mpr hops)
  rw [hanswers] at h₂
  rw [hafter] at tells₂
  exact ⟨s₁, s₂, _, _, h₁, h₂, tells₁, tells₂⟩

/-- It does not show whether a run was received at once or in steps. -/
theorem performEach_inSteps (hr : t.rep.Trackable) (hfits : t.base + t.rep.stateSize ≤ s.size)
    {first : Nat} {ns : List Nat}
    (hops : RunState.start.AllowsEach t.rep (ops ++ RunState.atOnce first ns :: rest)) :
    ∃ s₁ s₂ earlier later st,
      t.performEach (t.reset s) (ops ++ RunState.atOnce first ns :: rest) =
        .ok (s₁, earlier ++ none :: later) ∧
      t.performEach (t.reset s) (ops ++ (RunState.inSteps first ns ++ rest)) =
        .ok (s₂, earlier ++ (ns.map (fun _ => none) ++ later)) ∧
      later.length = rest.length ∧ t.Tells s₁ st ∧ t.Tells s₂ st := by
  obtain ⟨hbefore, hbulk, hrest⟩ := RunState.allowsEach_append.mp hops
  have hsteps : (RunState.start.after t.rep ops).AllowsEach t.rep
      (RunState.inSteps first ns ++ rest) := by
    refine RunState.allowsEach_append.mpr ⟨RunState.allowsEach_inSteps hbulk, ?_⟩
    rwa [RunState.after_inSteps]
  obtain ⟨s₁, h₁, tells₁⟩ := performEach_reset hr hfits hops
  obtain ⟨s₂, h₂, tells₂⟩ :=
    performEach_reset hr hfits (RunState.allowsEach_append.mpr ⟨hbefore, hsteps⟩)
  rw [RunState.answers_append] at h₁
  rw [RunState.after_append] at tells₁
  rw [RunState.answers_append, RunState.answers_append, RunState.answers_inSteps,
    RunState.after_inSteps] at h₂
  rw [RunState.after_append, RunState.after_append, RunState.after_inSteps] at tells₂
  exact ⟨s₁, s₂, _, _, _, h₁, h₂, RunState.length_answers, tells₁, tells₂⟩

/-- From the first state on, every sequence of operations that is allowed succeeds. What it
answers, and what the state tells afterwards, depends on how many repetitions each run received,
where it ended and the bounds. It does not depend on the tracking, and not on the steps in which
a run was received. -/
theorem tracking_does_not_show (hr : t.rep.Trackable)
    (hfits : t.base + t.rep.stateSize ≤ s.size) :
    (∀ ops, RunState.start.AllowsEach t.rep ops →
      ∃ s', t.performEach (t.reset s) ops = .ok (s', RunState.start.answers t.rep ops) ∧
        t.Tells s' (RunState.start.after t.rep ops)) ∧
    (∀ (t' : Tracker) (z : Bytes) (ops : List Operation), t'.rep.Trackable →
      t'.base + t'.rep.stateSize ≤ z.size → t'.rep.least = t.rep.least →
      t'.rep.most = t.rep.most → RunState.start.AllowsEach t.rep ops →
      ∃ s₁ s₂ answers st, t.performEach (t.reset s) ops = .ok (s₁, answers) ∧
        t'.performEach (t'.reset z) ops = .ok (s₂, answers) ∧ t.Tells s₁ st ∧ t'.Tells s₂ st) ∧
    ∀ (before rest : List Operation) (first : Nat) (ns : List Nat),
      RunState.start.AllowsEach t.rep (before ++ RunState.atOnce first ns :: rest) →
      ∃ s₁ s₂ earlier later st,
        t.performEach (t.reset s) (before ++ RunState.atOnce first ns :: rest) =
          .ok (s₁, earlier ++ none :: later) ∧
        t.performEach (t.reset s) (before ++ (RunState.inSteps first ns ++ rest)) =
          .ok (s₂, earlier ++ (ns.map (fun _ => none) ++ later)) ∧
        later.length = rest.length ∧ t.Tells s₁ st ∧ t.Tells s₂ st := by
  refine ⟨fun ops hops => performEach_reset hr hfits hops, ?_, ?_⟩
  · intro t' z ops hr' hfits' hleast hmost hops
    exact performEach_congr hr hr' hfits hfits' hleast hmost hops
  · intro before rest first ns hops
    exact performEach_inSteps hr hfits hops

/-- The state of `b{2,3}` with a ring of four offsets, from the third byte of a region on. -/
def ringOfFour : Tracker := ⟨⟨⟨0⟩, ⟨0⟩, .single 98, 2, .finite ⟨3, by decide⟩, .ring, #[]⟩, 3⟩

/-- A run of three, whose match is taken, and a run of six that fills the ring more than once. -/
def threeAndSix : List Operation :=
  [.extend 1 5, .extend 2 7, .close 9, .take, .extend 6 20, .close 4]

theorem ringOfFour_tells : ringOfFour.rep.Trackable ∧
    ringOfFour.base + ringOfFour.rep.stateSize ≤ (zeros 80).size ∧
    RunState.start.AllowsEach ringOfFour.rep threeAndSix ∧
    ∃ s', ringOfFour.performEach (ringOfFour.reset (zeros 80)) threeAndSix =
        .ok (s', [none, none, some ⟨4, 7, 9⟩, some ⟨4, 7, 9⟩, none, none]) ∧
      ringOfFour.Tells s' ⟨some 20, 0, none⟩ := by
  have hr : ringOfFour.rep.Trackable := ⟨by decide, nofun, fun _ => by decide⟩
  have hfits : ringOfFour.base + ringOfFour.rep.stateSize ≤ (zeros 80).size := by
    rw [zeros_size]
    decide
  have hops : RunState.start.AllowsEach ringOfFour.rep threeAndSix := by decide
  exact ⟨hr, hfits, hops, (tracking_does_not_show hr hfits).1 threeAndSix hops⟩

end Tracker

end StreamMatch
