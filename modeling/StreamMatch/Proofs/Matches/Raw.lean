-- Which matches the patterns of a program have in a stream, however the stream
-- is scanned: the confirmed occurrences of literals, and the maximal runs whose
-- length is within the bounds. No two of them have the same key.
import Mathlib.Data.List.Flatten
import Mathlib.Data.List.Nodup
import StreamMatch.Proofs.Automaton.Window
import StreamMatch.Proofs.ByteClass.Runs
import StreamMatch.Proofs.Literal.Ranks
import StreamMatch.Proofs.Program.Build

namespace StreamMatch

open Bytes

/-- A match of a pattern, reported or not. -/
structure RawMatch where
  key : Key
  pattern : PatternId
  startsAt : Nat
deriving DecidableEq, Repr

namespace Repeat

/-- The key of a match of a repeat that ends at an offset. It is also the key of
the literal that is the byte before the offset. -/
def keyAt (r : Repeat) (stream : Bytes) (last : Nat) : Key :=
  ⟨last, r.rankOf (byteAt stream (last - 1))⟩

/-- The match of a run. -/
def matchOf (r : Repeat) (stream : Bytes) (first stop : Nat) : RawMatch :=
  ⟨r.keyAt stream stop, r.pattern, first⟩

end Repeat

namespace Program

variable (p : Program) (stream : Bytes)

/-- Where the match of an occurrence of a literal starts, if the occurrence is
confirmed by an automaton that sees the whole stream. -/
def confirmedStart? (l : Literal) (start : Nat) : Option Nat :=
  match l.automaton with
  | none => some start
  | some id =>
    match p.automata[id.toNat]?.map fun a => (Window.whole stream).run a.code start with
    | some (.ok (.confirmed first)) => some first
    | _ => none

/-- The match of the `i`-th literal at an offset, if there is one. -/
def literalMatch? (i : Nat) (l : Literal) (start : Nat) : Option RawMatch :=
  match l.target with
  | .repetition _ => none
  | .pattern id =>
    if l.bytes.standsAt stream start = true ∧ (l.anchored = true → start = 0) then
      (p.confirmedStart? stream l start).map fun first =>
        ⟨⟨start + l.bytes.size, p.table.rank (.ofNat i)⟩, id, first⟩
    else none

/-- The matches of the literals. -/
def literalMatches : List RawMatch :=
  p.literals.toList.zipIdx.flatMap fun l =>
    (List.range (stream.size + 1)).filterMap (p.literalMatch? stream l.2 l.1)

/-- The match of the bytes in `[first, stop)`, if they are a run within the
bounds. -/
def runMatch? (r : Repeat) (stop first : Nat) : Option RawMatch :=
  if r.allowed.IsRun stream first stop ∧ r.Within (stop - first) then
    some (r.matchOf stream first stop)
  else none

/-- The matches of the repeats. -/
def runMatches : List RawMatch :=
  p.repeats.toList.flatMap fun r =>
    (List.range (stream.size + 1)).flatMap fun stop =>
      (List.range stop).filterMap (runMatch? stream r stop)

/-- All the matches, in the order of their keys. -/
def rawMatches : List RawMatch :=
  (p.literalMatches stream ++ p.runMatches stream).mergeSort fun a b => decide (a.key ≤ b.key)

variable {p stream} {m m' : RawMatch}

/-! ## The matches of each kind -/

theorem literalMatch?_eq_some {i start : Nat} {l : Literal} :
    p.literalMatch? stream i l start = some m ↔
      l.target = .pattern m.pattern ∧ l.bytes.standsAt stream start = true ∧
        (l.anchored = true → start = 0) ∧ p.confirmedStart? stream l start = some m.startsAt ∧
        m.key = ⟨start + l.bytes.size, p.table.rank (.ofNat i)⟩ := by
  obtain ⟨key, pattern, startsAt⟩ := m
  unfold literalMatch?
  rcases ht : l.target with id | id
  · simp only
    split
    · next h =>
      simp only [Option.map_eq_some_iff, RawMatch.mk.injEq, Target.pattern.injEq]
      constructor
      · rintro ⟨first, hf, hk, rfl, rfl⟩
        exact ⟨rfl, h.1, h.2, hf, hk.symm⟩
      · rintro ⟨rfl, -, -, hf, hk⟩
        exact ⟨_, hf, hk.symm, rfl, rfl⟩
    · next h =>
      constructor
      · intro hn
        cases hn
      · rintro ⟨-, hs, ha, -, -⟩
        exact absurd ⟨hs, ha⟩ h
  · simp

theorem literalMatch?_of_misplaced {i start : Nat} {l : Literal}
    (h : l.anchored = true ∧ start ≠ 0) : p.literalMatch? stream i l start = none := by
  refine Option.eq_none_iff_forall_ne_some.mpr fun m hm => h.2 ?_
  exact (literalMatch?_eq_some.mp hm).2.2.1 h.1

theorem literalMatch?_of_unconfirmed {i start : Nat} {l : Literal}
    (h : p.confirmedStart? stream l start = none) :
    p.literalMatch? stream i l start = none := by
  refine Option.eq_none_iff_forall_ne_some.mpr fun m hm => ?_
  obtain ⟨-, -, -, hfirst, -⟩ := literalMatch?_eq_some.mp hm
  rw [h] at hfirst
  cases hfirst

theorem mem_literalMatches : m ∈ p.literalMatches stream ↔
    ∃ i l start, p.literals[i]? = some l ∧ p.literalMatch? stream i l start = some m := by
  unfold literalMatches
  simp only [List.mem_flatMap, List.mem_filterMap, List.mem_range, Prod.exists,
    List.mk_mem_zipIdx_iff_getElem?, Array.getElem?_toList]
  constructor
  · rintro ⟨l, i, hl, start, -, hm⟩
    exact ⟨i, l, start, hl, hm⟩
  · rintro ⟨i, l, start, hl, hm⟩
    obtain ⟨-, hs, -⟩ := literalMatch?_eq_some.mp hm
    obtain ⟨hle, -⟩ := standsAt_iff.mp hs
    exact ⟨l, i, hl, start, by omega, hm⟩

theorem mem_runMatches : m ∈ p.runMatches stream ↔
    ∃ r ∈ p.repeats, ∃ first stop, r.allowed.IsRun stream first stop ∧
      r.accepts (stop - first) = true ∧ m = r.matchOf stream first stop := by
  unfold runMatches runMatch?
  simp only [List.mem_flatMap, List.mem_filterMap, List.mem_range, Array.mem_toList_iff]
  constructor
  · rintro ⟨r, hr, stop, -, first, -, hm⟩
    split at hm
    · next h =>
      exact ⟨r, hr, first, stop, h.1, Repeat.accepts_iff.mpr h.2, by simpa using hm.symm⟩
    · cases hm
  · rintro ⟨r, hr, first, stop, hrun, ha, rfl⟩
    have hle := hrun.le_size
    exact ⟨r, hr, stop, by omega, first, hrun.lt, by rw [if_pos ⟨hrun, Repeat.accepts_iff.mp ha⟩]⟩

theorem mem_rawMatches :
    m ∈ p.rawMatches stream ↔ m ∈ p.literalMatches stream ∨ m ∈ p.runMatches stream := by
  unfold rawMatches
  rw [List.mem_mergeSort, List.mem_append]

/-! ## Keys -/

namespace Sound

variable {i j last last' first stop first' stop' : Nat} {r r' : Repeat}

/-- The key after a byte of the class of a repeat is the one of the literal that
starts runs with that byte. -/
theorem exists_trigger (hp : p.Sound) (hr : r ∈ p.repeats)
    (hb : r.allowed.contains (byteAt stream (last - 1)) = true) :
    ∃ i : Nat, p.literals[i]? = some (trigger (byteAt stream (last - 1)) r.id) ∧
      r.keyAt stream last = ⟨last, p.table.rank (.ofNat i)⟩ := by
  obtain ⟨i, hi, hrank⟩ := hp.triggered r hr _ hb
  refine ⟨i, hi, ?_⟩
  rw [Repeat.keyAt, hrank]

theorem keyAt_rank_lt (hp : p.Sound) (hr : r ∈ p.repeats)
    (hb : r.allowed.contains (byteAt stream (last - 1)) = true) :
    (r.keyAt stream last).rank < 0x100000000 := by
  obtain ⟨i, hi, hkey⟩ := hp.exists_trigger hr hb
  rw [hkey]
  exact hp.rank_lt (Array.getElem?_eq_some_iff.mp hi).1

theorem keyAt_inj (hp : p.Sound) (hr : r ∈ p.repeats) (hr' : r' ∈ p.repeats)
    (hb : r.allowed.contains (byteAt stream (last - 1)) = true)
    (hb' : r'.allowed.contains (byteAt stream (last' - 1)) = true)
    (h : r.keyAt stream last = r'.keyAt stream last') : r = r' ∧ last = last' := by
  obtain ⟨i, hi, hkey⟩ := hp.exists_trigger hr hb
  obtain ⟨j, hj, hkey'⟩ := hp.exists_trigger hr' hb'
  rw [hkey, hkey', Key.mk.injEq] at h
  obtain ⟨hlast, hrank⟩ := h
  obtain rfl := hp.rank_inj (Array.getElem?_eq_some_iff.mp hi).1
    (Array.getElem?_eq_some_iff.mp hj).1 hrank
  refine ⟨?_, hlast⟩
  rw [hi, Option.some.injEq] at hj
  have hid : r.id = r'.id := by
    have ht := congrArg Literal.target hj
    simpa [trigger] using ht
  have hget := hp.getElem?_repeats hr
  rw [hid, hp.getElem?_repeats hr', Option.some.injEq] at hget
  exact hget.symm

/-- The match of a run tells the repeat and the run. -/
theorem matchOf_inj (hp : p.Sound) (hr : r ∈ p.repeats) (hr' : r' ∈ p.repeats)
    (hrun : r.allowed.IsRun stream first stop) (hrun' : r'.allowed.IsRun stream first' stop')
    (h : r.keyAt stream stop = r'.keyAt stream stop') :
    r = r' ∧ first = first' ∧ stop = stop' := by
  have hlt := hrun.lt
  have hlt' := hrun'.lt
  obtain ⟨rfl, rfl⟩ := hp.keyAt_inj hr hr' (hrun.inside _ (by omega) (by omega))
    (hrun'.inside _ (by omega) (by omega)) h
  exact ⟨rfl, hrun.eq_of_mem hrun' ⟨show first ≤ stop - 1 by omega, by omega⟩
    ⟨by omega, by omega⟩⟩

/-- A match of a literal is not one of a repeat. -/
theorem literal_key_ne (hp : p.Sound) (hm : m ∈ p.literalMatches stream) (hr : r ∈ p.repeats)
    (hb : r.allowed.contains (byteAt stream (last - 1)) = true) :
    m.key ≠ r.keyAt stream last := by
  intro h
  obtain ⟨i, l, start, hl, hm⟩ := mem_literalMatches.mp hm
  obtain ⟨ht, -, -, -, hkey⟩ := literalMatch?_eq_some.mp hm
  obtain ⟨j, hj, hkey'⟩ := hp.exists_trigger hr hb
  rw [hkey, hkey', Key.mk.injEq] at h
  obtain rfl := hp.rank_inj (Array.getElem?_eq_some_iff.mp hl).1
    (Array.getElem?_eq_some_iff.mp hj).1 h.2
  rw [hl, Option.some.injEq] at hj
  subst hj
  cases ht

theorem literal_key_inj (hp : p.Sound) (hm : m ∈ p.literalMatches stream)
    (hm' : m' ∈ p.literalMatches stream) (h : m.key = m'.key) : m = m' := by
  obtain ⟨i, l, start, hl, hm⟩ := mem_literalMatches.mp hm
  obtain ⟨j, l', start', hl', hm'⟩ := mem_literalMatches.mp hm'
  obtain ⟨-, -, -, -, hkey⟩ := literalMatch?_eq_some.mp hm
  obtain ⟨-, -, -, -, hkey'⟩ := literalMatch?_eq_some.mp hm'
  rw [hkey, hkey', Key.mk.injEq] at h
  obtain rfl := hp.rank_inj (Array.getElem?_eq_some_iff.mp hl).1
    (Array.getElem?_eq_some_iff.mp hl').1 h.2
  rw [hl, Option.some.injEq] at hl'
  subst hl'
  obtain rfl : start = start' := by omega
  rw [hm, Option.some.injEq] at hm'
  exact hm'

/-- The key of a match tells which match it is. -/
theorem key_inj (hp : p.Sound) (hm : m ∈ p.rawMatches stream) (hm' : m' ∈ p.rawMatches stream)
    (h : m.key = m'.key) : m = m' := by
  have hlast : ∀ {r : Repeat} {first stop : Nat}, r.allowed.IsRun stream first stop →
      r.allowed.contains (byteAt stream (stop - 1)) = true := by
    intro r first stop hrun
    have := hrun.lt
    exact hrun.inside _ (by omega) (by omega)
  rcases mem_rawMatches.mp hm with hm | hm
  · rcases mem_rawMatches.mp hm' with hm' | hm'
    · exact hp.literal_key_inj hm hm' h
    · obtain ⟨r, hr, first, stop, hrun, -, rfl⟩ := mem_runMatches.mp hm'
      exact absurd h (hp.literal_key_ne hm hr (hlast hrun))
  · obtain ⟨r, hr, first, stop, hrun, -, rfl⟩ := mem_runMatches.mp hm
    rcases mem_rawMatches.mp hm' with hm' | hm'
    · exact absurd h.symm (hp.literal_key_ne hm' hr (hlast hrun))
    · obtain ⟨r', hr', first', stop', hrun', -, rfl⟩ := mem_runMatches.mp hm'
      obtain ⟨rfl, rfl, rfl⟩ := hp.matchOf_inj hr hr' hrun hrun' h
      rfl

/-! ## Order -/

theorem nodup_literalMatches (hp : p.Sound) : (p.literalMatches stream).Nodup := by
  have hindices : (p.literals.toList.zipIdx.map Prod.snd).Nodup := by
    rw [List.zipIdx_map_snd]
    exact List.nodup_range'
  unfold literalMatches
  rw [List.nodup_flatMap]
  constructor
  · rintro ⟨l, i⟩ -
    refine List.Nodup.filterMap ?_ List.nodup_range
    intro start start' m hm hm'
    obtain ⟨-, -, -, -, hkey⟩ := literalMatch?_eq_some.mp hm
    obtain ⟨-, -, -, -, hkey'⟩ := literalMatch?_eq_some.mp hm'
    rw [hkey, Key.mk.injEq] at hkey'
    omega
  · rw [List.nodup_iff_pairwise_ne, List.pairwise_map] at hindices
    refine hindices.imp_of_mem ?_
    rintro ⟨l, i⟩ ⟨l', j⟩ hl hl' hne m hm hm'
    rw [List.mk_mem_zipIdx_iff_getElem?, Array.getElem?_toList] at hl hl'
    obtain ⟨start, -, hm⟩ := List.mem_filterMap.mp hm
    obtain ⟨start', -, hm'⟩ := List.mem_filterMap.mp hm'
    obtain ⟨-, -, -, -, hkey⟩ := literalMatch?_eq_some.mp hm
    obtain ⟨-, -, -, -, hkey'⟩ := literalMatch?_eq_some.mp hm'
    rw [hkey, Key.mk.injEq] at hkey'
    exact hne (hp.rank_inj (Array.getElem?_eq_some_iff.mp hl).1
      (Array.getElem?_eq_some_iff.mp hl').1 hkey'.2)

theorem nodup_repeats (hp : p.Sound) : p.repeats.toList.Nodup := by
  rw [List.nodup_iff_getElem?_ne_getElem?]
  intro i j hij hj h
  have hi := List.getElem?_eq_getElem (show i < p.repeats.toList.length by omega)
  have hi' := hi
  rw [h] at hi'
  rw [Array.getElem?_toList] at hi hi'
  have h₁ := hp.repeat_id _ _ hi
  have h₂ := hp.repeat_id _ _ hi'
  omega

theorem runMatch?_eq_some {r : Repeat} :
    runMatch? stream r stop first = some m ↔
      r.allowed.IsRun stream first stop ∧ r.Within (stop - first) ∧
        m = r.matchOf stream first stop := by
  unfold runMatch?
  split
  · next h =>
    simp only [h, true_and, Option.some.injEq]
    exact eq_comm
  · next h =>
    constructor
    · intro hn
      cases hn
    · rintro ⟨hrun, ha, -⟩
      exact absurd ⟨hrun, ha⟩ h

theorem nodup_runMatches (hp : p.Sound) : (p.runMatches stream).Nodup := by
  unfold runMatches
  rw [List.nodup_flatMap]
  constructor
  · intro r hr
    rw [List.nodup_flatMap]
    constructor
    · intro stop _
      refine List.Nodup.filterMap ?_ List.nodup_range
      intro first first' m hm hm'
      obtain ⟨-, -, rfl⟩ := runMatch?_eq_some.mp hm
      obtain ⟨-, -, heq⟩ := runMatch?_eq_some.mp hm'
      exact congrArg RawMatch.startsAt heq
    · refine List.nodup_range.imp ?_
      intro stop stop' hne m hm hm'
      obtain ⟨first, -, hm⟩ := List.mem_filterMap.mp hm
      obtain ⟨first', -, hm'⟩ := List.mem_filterMap.mp hm'
      obtain ⟨-, -, rfl⟩ := runMatch?_eq_some.mp hm
      obtain ⟨-, -, heq⟩ := runMatch?_eq_some.mp hm'
      exact hne (congrArg (fun m : RawMatch => m.key.endsAt) heq)
  · refine hp.nodup_repeats.imp_of_mem ?_
    intro r r' hr hr' hne m hm hm'
    obtain ⟨stop, -, hm⟩ := List.mem_flatMap.mp hm
    obtain ⟨stop', -, hm'⟩ := List.mem_flatMap.mp hm'
    obtain ⟨first, -, hm⟩ := List.mem_filterMap.mp hm
    obtain ⟨first', -, hm'⟩ := List.mem_filterMap.mp hm'
    obtain ⟨hrun, -, rfl⟩ := runMatch?_eq_some.mp hm
    obtain ⟨hrun', -, heq⟩ := runMatch?_eq_some.mp hm'
    exact hne (hp.matchOf_inj (Array.mem_toList_iff.mp hr) (Array.mem_toList_iff.mp hr') hrun hrun'
      (congrArg RawMatch.key heq)).1

theorem nodup_rawMatches (hp : p.Sound) : (p.rawMatches stream).Nodup := by
  unfold rawMatches
  rw [(List.mergeSort_perm _ _).nodup_iff, List.nodup_append']
  refine ⟨hp.nodup_literalMatches, hp.nodup_runMatches, ?_⟩
  intro m hm hm'
  obtain ⟨r, hr, first, stop, hrun, -, rfl⟩ := mem_runMatches.mp hm'
  have := hrun.lt
  exact hp.literal_key_ne hm hr (hrun.inside _ (by omega) (by omega)) rfl

/-- Each match goes before those that follow it. -/
theorem pairwise_rawMatches (hp : p.Sound) :
    (p.rawMatches stream).Pairwise fun a b => a.key < b.key := by
  have hsorted : (p.rawMatches stream).Pairwise fun a b => decide (a.key ≤ b.key) = true :=
    List.pairwise_mergeSort
      (fun a b c hab hbc => by simp only [decide_eq_true_iff, Key.le_def] at *; omega)
      (fun a b => by simp only [Bool.or_eq_true, decide_eq_true_iff, Key.le_def]; omega) _
  have hnodup : (p.rawMatches stream).Pairwise (· ≠ ·) :=
    List.nodup_iff_pairwise_ne.mp hp.nodup_rawMatches
  refine (hsorted.and hnodup).imp_of_mem ?_
  rintro a b ha hb ⟨hle, hne⟩
  have hle := of_decide_eq_true hle
  have hkey : a.key ≠ b.key := fun h => hne (hp.key_inj ha hb h)
  rcases Decidable.em (a.key < b.key) with hlt | hlt
  · exact hlt
  · rw [Key.not_lt] at hlt
    refine absurd (Key.ext ?_ ?_) hkey
    · rw [Key.le_def] at hle hlt
      omega
    · rw [Key.le_def] at hle hlt
      omega

/-! ## Bounds -/

theorem pattern_lt (hp : p.Sound) (hm : m ∈ p.rawMatches stream) :
    m.pattern.toNat < p.patterns.size := by
  rcases mem_rawMatches.mp hm with hm | hm
  · obtain ⟨i, l, start, hl, hm⟩ := mem_literalMatches.mp hm
    exact hp.target_pattern l (Array.mem_of_getElem? hl) _ (literalMatch?_eq_some.mp hm).1
  · obtain ⟨r, hr, first, stop, -, -, rfl⟩ := mem_runMatches.mp hm
    exact hp.repeat_pattern r hr

theorem endsAt_le (hm : m ∈ p.rawMatches stream) : m.key.endsAt ≤ stream.size := by
  rcases mem_rawMatches.mp hm with hm | hm
  · obtain ⟨i, l, start, hl, hm⟩ := mem_literalMatches.mp hm
    obtain ⟨-, hstands, -, -, hkey⟩ := literalMatch?_eq_some.mp hm
    rw [hkey]
    exact (standsAt_iff.mp hstands).1
  · obtain ⟨r, -, first, stop, hrun, -, rfl⟩ := mem_runMatches.mp hm
    exact hrun.le_size

end Sound

end Program

end StreamMatch
