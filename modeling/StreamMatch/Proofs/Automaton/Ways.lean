-- The ways through some directives, one for each choice of an alternative in each alternation.
-- The least and the greatest offset that some way comes to are known from those of the first
-- directive: the other directives go on from there as they would from any other offset.
import Mathlib.Data.List.Sections
import Mathlib.Order.Bounds.Basic
import StreamMatch.Proofs.Automaton.Bounded

namespace StreamMatch

/-- What a directive does with one of its choices. -/
structure Move where
  /-- How many bytes it looks at from the cursor on, if it looks at bytes. -/
  looks : Option Nat
  /-- By how much it moves the cursor. -/
  shift : Int
deriving DecidableEq, Repr

namespace Move

/-- The offsets of the cursor after each of some moves. -/
def stops (cursor : Int) : List Move → List Int
  | [] => []
  | m :: rest => (cursor + m.shift) :: stops (cursor + m.shift) rest

/-- What some moves look at: the offset of the cursor, and how many bytes from there on. -/
def reads (cursor : Int) : List Move → List (Int × Nat)
  | [] => []
  | m :: rest => (m.looks.map fun n => (cursor, n)).toList ++ reads (cursor + m.shift) rest

theorem stops_add (cursor k : Int) (way : List Move) :
    stops (cursor + k) way = (stops cursor way).map (· + k) := by
  induction way generalizing cursor with
  | nil => rfl
  | cons m rest ih =>
    have hadd : cursor + k + m.shift = cursor + m.shift + k := by omega
    rw [stops, stops, List.map_cons, hadd, ih]

theorem reads_add (cursor k : Int) (way : List Move) :
    reads (cursor + k) way = (reads cursor way).map fun r => (r.1 + k, r.2) := by
  induction way generalizing cursor with
  | nil => rfl
  | cons m rest ih =>
    have hadd : cursor + k + m.shift = cursor + m.shift + k := by omega
    rw [reads, reads, List.map_append, hadd, ih]
    cases m.looks <;> rfl

end Move

namespace Directive

/-- The moves of a directive, one for each of its choices. -/
def moves : Directive → List Move
  | literal bs | masked bs _ => [⟨some bs.size, bs.size⟩]
  | within _ | outside _ => [⟨some 1, 1⟩]
  | seek delta => [⟨none, delta⟩]
  | accept | atStart => [⟨none, 0⟩]
  | atEnd => [⟨some 1, 0⟩]
  | alternation choices => choices.map fun c => ⟨some c.size, c.size⟩

/-- The ways through some directives. -/
def ways (ds : List Directive) : List (List Move) := (ds.map moves).sections

/-- The offsets that the cursor has after some directive, on some way. -/
def stopsOf (cursor : Int) (ds : List Directive) : Set Int :=
  {x | ∃ way ∈ ways ds, x ∈ Move.stops cursor way}

/-- What some directive looks at, on some way. -/
def readsOf (cursor : Int) (ds : List Directive) : Set (Int × Nat) :=
  {r | ∃ way ∈ ways ds, r ∈ Move.reads cursor way}

variable {d : Directive} {ds : List Directive} {cursor x : Int} {r : Int × Nat}

theorem mem_ways_cons {way : List Move} :
    way ∈ ways (d :: ds) ↔ ∃ m ∈ d.moves, ∃ rest ∈ ways ds, way = m :: rest := by
  unfold ways
  rw [List.map_cons, List.sections, List.mem_flatMap]
  constructor
  · rintro ⟨rest, hrest, hway⟩
    obtain ⟨m, hm, rfl⟩ := List.mem_map.mp hway
    exact ⟨m, hm, rest, hrest, rfl⟩
  · rintro ⟨m, hm, rest, hrest, rfl⟩
    exact ⟨rest, hrest, List.mem_map_of_mem hm⟩

theorem ways_nil : ways [] = [[]] := rfl

theorem forall_stopsOf {p : Int → Prop} :
    (∀ x ∈ stopsOf cursor ds, p x) ↔ ∀ way ∈ ways ds, ∀ x ∈ Move.stops cursor way, p x := by
  constructor
  · exact fun h way hway x hx => h x ⟨way, hway, hx⟩
  · rintro h x ⟨way, hway, hx⟩
    exact h way hway x hx

theorem stopsOf_nil (cursor : Int) : stopsOf cursor [] = ∅ := by
  ext x
  simp [stopsOf, ways_nil, Move.stops]

theorem readsOf_nil (cursor : Int) : readsOf cursor [] = ∅ := by
  ext r
  simp [readsOf, ways_nil, Move.reads]

/-- There is a way if each directive has a choice. -/
theorem exists_way (h : ∀ d ∈ ds, d.moves ≠ []) : ∃ way, way ∈ ways ds := by
  induction ds with
  | nil => exact ⟨[], List.mem_singleton.mpr rfl⟩
  | cons d rest ih =>
    obtain ⟨m, hm⟩ := List.exists_mem_of_ne_nil _ (h d List.mem_cons_self)
    obtain ⟨way, hway⟩ := ih fun d' hd' => h d' (List.mem_cons_of_mem d hd')
    exact ⟨m :: way, mem_ways_cons.mpr ⟨m, hm, way, hway, rfl⟩⟩

theorem mem_stopsOf_one : x ∈ stopsOf cursor [d] ↔ ∃ m ∈ d.moves, x = cursor + m.shift := by
  constructor
  · rintro ⟨way, hway, hx⟩
    obtain ⟨m, hm, rest, hrest, rfl⟩ := mem_ways_cons.mp hway
    rw [ways_nil, List.mem_singleton] at hrest
    subst hrest
    exact ⟨m, hm, List.mem_singleton.mp hx⟩
  · rintro ⟨m, hm, rfl⟩
    exact ⟨[m], mem_ways_cons.mpr ⟨m, hm, [], List.mem_singleton.mpr rfl, rfl⟩,
      List.mem_singleton.mpr rfl⟩

theorem mem_readsOf_one :
    r ∈ readsOf cursor [d] ↔ ∃ m ∈ d.moves, m.looks = some r.2 ∧ r.1 = cursor := by
  constructor
  · rintro ⟨way, hway, hr⟩
    obtain ⟨m, hm, rest, hrest, rfl⟩ := mem_ways_cons.mp hway
    rw [ways_nil, List.mem_singleton] at hrest
    subst hrest
    refine ⟨m, hm, ?_⟩
    cases hlooks : m.looks with
    | none => simp [Move.reads, hlooks] at hr
    | some n =>
      have heq : r = (cursor, n) := by simpa [Move.reads, hlooks] using hr
      rw [heq]
      exact ⟨rfl, rfl⟩
  · rintro ⟨m, hm, hlooks, hcursor⟩
    refine ⟨[m], mem_ways_cons.mpr ⟨m, hm, [], List.mem_singleton.mpr rfl, rfl⟩, ?_⟩
    simp [Move.reads, hlooks, ← hcursor]

/-- The offsets after the first directive, and those that the other directives come to from
there. -/
theorem mem_stopsOf_cons (hways : ∃ way, way ∈ ways ds) :
    x ∈ stopsOf cursor (d :: ds) ↔
      x ∈ stopsOf cursor [d] ∨ ∃ y ∈ stopsOf cursor [d], x ∈ stopsOf y ds := by
  constructor
  · rintro ⟨way, hway, hx⟩
    obtain ⟨m, hm, rest, hrest, rfl⟩ := mem_ways_cons.mp hway
    have hstop : cursor + m.shift ∈ stopsOf cursor [d] := mem_stopsOf_one.mpr ⟨m, hm, rfl⟩
    rcases List.mem_cons.mp hx with rfl | hx
    · exact Or.inl hstop
    · exact Or.inr ⟨_, hstop, rest, hrest, hx⟩
  · rintro (hx | ⟨y, hy, rest, hrest, hx⟩)
    · obtain ⟨m, hm, rfl⟩ := mem_stopsOf_one.mp hx
      obtain ⟨rest, hrest⟩ := hways
      exact ⟨m :: rest, mem_ways_cons.mpr ⟨m, hm, rest, hrest, rfl⟩, List.mem_cons_self⟩
    · obtain ⟨m, hm, rfl⟩ := mem_stopsOf_one.mp hy
      exact ⟨m :: rest, mem_ways_cons.mpr ⟨m, hm, rest, hrest, rfl⟩, List.mem_cons_of_mem _ hx⟩

theorem mem_readsOf_cons (hways : ∃ way, way ∈ ways ds) :
    r ∈ readsOf cursor (d :: ds) ↔
      r ∈ readsOf cursor [d] ∨ ∃ y ∈ stopsOf cursor [d], r ∈ readsOf y ds := by
  constructor
  · rintro ⟨way, hway, hr⟩
    obtain ⟨m, hm, rest, hrest, rfl⟩ := mem_ways_cons.mp hway
    rcases List.mem_append.mp hr with hr | hr
    · refine Or.inl ⟨[m], mem_ways_cons.mpr ⟨m, hm, [], List.mem_singleton.mpr rfl, rfl⟩, ?_⟩
      exact List.mem_append_left _ hr
    · exact Or.inr ⟨_, mem_stopsOf_one.mpr ⟨m, hm, rfl⟩, rest, hrest, hr⟩
  · rintro (hr | ⟨y, hy, rest, hrest, hr⟩)
    · obtain ⟨m, hm, hlooks, hcursor⟩ := mem_readsOf_one.mp hr
      obtain ⟨rest, hrest⟩ := hways
      refine ⟨m :: rest, mem_ways_cons.mpr ⟨m, hm, rest, hrest, rfl⟩, ?_⟩
      simp [Move.reads, hlooks, ← hcursor]
    · obtain ⟨m, hm, rfl⟩ := mem_stopsOf_one.mp hy
      exact ⟨m :: rest, mem_ways_cons.mpr ⟨m, hm, rest, hrest, rfl⟩, List.mem_append_right _ hr⟩

theorem mem_stopsOf_add {k : Int} : x + k ∈ stopsOf (cursor + k) ds ↔ x ∈ stopsOf cursor ds := by
  unfold stopsOf
  simp only [Set.mem_ofPred_eq, Move.stops_add, List.mem_map, Int.add_left_inj, exists_eq_right]

theorem mem_readsOf_add {k : Int} :
    (r.1 + k, r.2) ∈ readsOf (cursor + k) ds ↔ r ∈ readsOf cursor ds := by
  unfold readsOf
  simp only [Set.mem_ofPred_eq, Move.reads_add, List.mem_map, Prod.mk.injEq, Int.add_left_inj]
  constructor
  · rintro ⟨way, hway, r', hr', hfirst, hsecond⟩
    exact ⟨way, hway, Prod.ext hfirst hsecond ▸ hr'⟩
  · rintro ⟨way, hway, hr⟩
    exact ⟨way, hway, r, hr, rfl, rfl⟩

end Directive

/-! ## The outermost offset in one direction -/

/-- One of the two orders of offsets, from the left or from the right. -/
structure Outward (le : Int → Int → Prop) : Prop where
  refl : ∀ x, le x x
  trans : ∀ {x y z}, le x y → le y z → le x z
  antisymm : ∀ {x y}, le x y → le y x → x = y
  add : ∀ {x y} k, le x y → le (x + k) (y + k)

theorem outward_le : Outward (· ≤ ·) := ⟨by omega, by omega, by omega, by omega⟩

theorem outward_ge : Outward (· ≥ ·) := ⟨by omega, by omega, by omega, by omega⟩

/-- The first element of a set of offsets in an order of them, the least one or the greatest
one. -/
def IsOutermost (le : Int → Int → Prop) (s : Set Int) (x : Int) : Prop := x ∈ s ∧ ∀ y ∈ s, le x y

namespace Outward

open Directive

variable {le : Int → Int → Prop} {d : Directive} {ds : List Directive} {cursor cursor' r r' x : Int}

/-- Offsets that have others of them further out do not matter. -/
theorem outermost_iff (h : Outward le) {s t : Set Int} (hsub : ∀ y ∈ t, y ∈ s)
    (hout : ∀ y ∈ s, ∃ z ∈ t, le z y) : IsOutermost le s x ↔ IsOutermost le t x := by
  constructor
  · rintro ⟨hx, hall⟩
    obtain ⟨z, hz, hle⟩ := hout x hx
    rw [h.antisymm (hall z (hsub z hz)) hle]
    exact ⟨hz, fun y hy => h.trans hle (hall y (hsub y hy))⟩
  · rintro ⟨hx, hall⟩
    refine ⟨hsub x hx, fun y hy => ?_⟩
    obtain ⟨z, hz, hle⟩ := hout y hy
    exact h.trans (hall z hz) hle

/-- The same way from an offset further out comes to offsets further out. -/
theorem exists_stop (h : Outward le) (hle : le cursor' cursor) (hx : x ∈ stopsOf cursor ds) :
    ∃ y ∈ stopsOf cursor' ds, le y x := by
  obtain ⟨k, rfl⟩ : ∃ k, cursor' = cursor + k := ⟨cursor' - cursor, by omega⟩
  refine ⟨x + k, mem_stopsOf_add.mpr hx, ?_⟩
  have hk := h.add (x - cursor) hle
  rwa [show cursor + k + (x - cursor) = x + k by omega,
    show cursor + (x - cursor) = x by omega] at hk

theorem exists_read (h : Outward le) (f : Nat → Int) (hle : le cursor' cursor) {r : Int × Nat}
    (hr : r ∈ readsOf cursor ds) : ∃ r' ∈ readsOf cursor' ds, le (r'.1 + f r'.2) (r.1 + f r.2) := by
  obtain ⟨k, rfl⟩ : ∃ k, cursor' = cursor + k := ⟨cursor' - cursor, by omega⟩
  refine ⟨(r.1 + k, r.2), mem_readsOf_add.mpr hr, ?_⟩
  have hk := h.add (r.1 + f r.2 - cursor) hle
  rwa [show cursor + k + (r.1 + f r.2 - cursor) = r.1 + k + f r.2 by omega,
    show cursor + (r.1 + f r.2 - cursor) = r.1 + f r.2 by omega] at hk

/-- No way comes to an offset beyond a limit if the first directive does not, and the others do
not from the outermost offset after it. -/
theorem stops_cons_iff (h : Outward le) (hways : ∃ way, way ∈ ways ds)
    (hstop : IsOutermost le (stopsOf cursor [d]) cursor') {limit : Int} :
    (∀ y ∈ stopsOf cursor (d :: ds), le limit y) ↔
      le limit cursor' ∧ ∀ y ∈ stopsOf cursor' ds, le limit y := by
  constructor
  · intro hall
    refine ⟨hall _ ((mem_stopsOf_cons hways).mpr (Or.inl hstop.1)), fun y hy => ?_⟩
    exact hall y ((mem_stopsOf_cons hways).mpr (Or.inr ⟨cursor', hstop.1, hy⟩))
  · rintro ⟨hfirst, hall⟩ y hy
    rcases (mem_stopsOf_cons hways).mp hy with hy | ⟨z, hz, hy⟩
    · exact h.trans hfirst (hstop.2 y hy)
    · obtain ⟨y', hy', hle⟩ := h.exists_stop (hstop.2 z hz) hy
      exact h.trans (hall y' hy') hle

/-- The outermost offset of what was looked at before and of what some directives look at. With
`f` the place in what is looked at is chosen, its first byte or what follows its last one. -/
def Reads (le : Int → Int → Prop) (f : Nat → Int) (r cursor : Int) (ds : List Directive)
    (x : Int) : Prop :=
  IsOutermost le (insert r ((fun p : Int × Nat => p.1 + f p.2) '' readsOf cursor ds)) x

theorem reads_nil_iff (h : Outward le) {f : Nat → Int} : Reads le f r cursor [] x ↔ x = r := by
  unfold Reads IsOutermost
  simp only [readsOf_nil, Set.image_empty, insert_empty_eq, Set.mem_singleton_iff, forall_eq]
  exact ⟨fun hx => hx.1, fun hx => ⟨hx, hx ▸ h.refl x⟩⟩

theorem reads_cons_iff (h : Outward le) {f : Nat → Int} (hways : ∃ way, way ∈ ways ds)
    (hstop : IsOutermost le (stopsOf cursor [d]) cursor') (hread : Reads le f r cursor [d] r') :
    Reads le f r cursor (d :: ds) x ↔ Reads le f r' cursor' ds x := by
  -- What the other directives look at from the outermost offset is further out than what they
  -- look at from any other one.
  refine h.outermost_iff ?_ ?_
  · rintro y (rfl | ⟨p, hp, rfl⟩)
    · rcases hread.1 with rfl | ⟨p, hp, heq⟩
      · exact Or.inl rfl
      · exact Or.inr ⟨p, (mem_readsOf_cons hways).mpr (Or.inl hp), heq⟩
    · exact Or.inr ⟨p, (mem_readsOf_cons hways).mpr (Or.inr ⟨cursor', hstop.1, hp⟩), rfl⟩
  · rintro y (rfl | ⟨p, hp, rfl⟩)
    · exact ⟨r', Or.inl rfl, hread.2 _ (Or.inl rfl)⟩
    · rcases (mem_readsOf_cons hways).mp hp with hp | ⟨z, hz, hp⟩
      · exact ⟨r', Or.inl rfl, hread.2 _ (Or.inr ⟨p, hp, rfl⟩)⟩
      · obtain ⟨p', hp', hle⟩ := h.exists_read f (hstop.2 z hz) hp
        exact ⟨_, Or.inr ⟨p', hp', rfl⟩, hle⟩

end Outward

end StreamMatch
