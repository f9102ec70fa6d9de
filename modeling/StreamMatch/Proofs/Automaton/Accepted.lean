-- Which code is accepted as that of an automaton, and with which reach. It is the code of some
-- directives with one `accept` at the end, where the cursor stays in range on each way through
-- the directives, and the reach is the range of what is looked at on some way.
import StreamMatch.Proofs.Automaton.Analysis
import StreamMatch.Proofs.Automaton.Ways

namespace StreamMatch

/-! ## One directive -/

namespace Directive

variable {d : Directive} {lo hi lo' hi' : Int} {reach reach' : Reach}

/-- The outermost offsets after a directive, and the outermost offsets of what was looked at. -/
structure Tracked (d : Directive) (lo hi : Int) (reach : Reach) (lo' hi' : Int) (reach' : Reach) :
    Prop where
  least_stop : IsOutermost (· ≤ ·) (stopsOf lo [d]) lo'
  most_stop : IsOutermost (· ≥ ·) (stopsOf hi [d]) hi'
  least_read : Outward.Reads (· ≤ ·) (fun _ => 0) reach.least lo [d] reach'.least
  most_read : Outward.Reads (· ≥ ·) (fun n => n) reach.most hi [d] reach'.most

/-- A directive that looks at no bytes. -/
theorem Tracked.of_move {shift : Int} (h : d.moves = [⟨none, shift⟩]) :
    d.Tracked lo hi reach (lo + shift) (hi + shift) reach := by
  have hstop : ∀ {cursor x}, x ∈ stopsOf cursor [d] ↔ x = cursor + shift := by
    intro cursor x
    simp [mem_stopsOf_one, h]
  have hread : ∀ cursor, readsOf cursor [d] = ∅ := by
    intro cursor
    ext r
    simp [mem_readsOf_one, h]
  refine ⟨⟨hstop.mpr rfl, fun y hy => ?_⟩, ⟨hstop.mpr rfl, fun y hy => ?_⟩, ?_, ?_⟩
  · exact Int.le_of_eq (hstop.mp hy).symm
  · exact Int.le_of_eq (hstop.mp hy)
  · simp [Outward.Reads, IsOutermost, hread]
  · simp [Outward.Reads, IsOutermost, hread]

/-- A directive that looks at bytes with each choice. -/
theorem Tracked.of_looks {a b : Int} {most : Nat}
    (hlooks : ∀ m ∈ d.moves, ∃ n, m.looks = some n ∧ n ≤ most)
    (hmost : ∃ m ∈ d.moves, m.looks = some most)
    (hshift : ∀ m ∈ d.moves, a ≤ m.shift ∧ m.shift ≤ b) (ha : ∃ m ∈ d.moves, m.shift = a)
    (hb : ∃ m ∈ d.moves, m.shift = b) :
    d.Tracked lo hi reach (lo + a) (hi + b) (reach.read lo hi most) := by
  obtain ⟨m, hm, hlook⟩ := hmost
  have hread : ∀ cursor, (cursor, most) ∈ readsOf cursor [d] :=
    fun cursor => mem_readsOf_one.mpr ⟨m, hm, hlook, rfl⟩
  refine ⟨⟨?_, ?_⟩, ⟨?_, ?_⟩, ⟨?_, ?_⟩, ⟨?_, ?_⟩⟩
  · obtain ⟨m, hm, rfl⟩ := ha
    exact mem_stopsOf_one.mpr ⟨m, hm, rfl⟩
  · intro y hy
    obtain ⟨m, hm, rfl⟩ := mem_stopsOf_one.mp hy
    have := hshift m hm
    omega
  · obtain ⟨m, hm, rfl⟩ := hb
    exact mem_stopsOf_one.mpr ⟨m, hm, rfl⟩
  · intro y hy
    obtain ⟨m, hm, rfl⟩ := mem_stopsOf_one.mp hy
    have := hshift m hm
    omega
  · rcases Int.le_total reach.least lo with hle | hle
    · exact Or.inl (Int.min_eq_left hle)
    · exact Or.inr ⟨_, hread lo, by simp [Reach.read, Int.min_eq_right hle]⟩
  · rintro y (rfl | ⟨p, hp, rfl⟩)
    · exact Int.min_le_left _ _
    · obtain ⟨m, hm, hlook, hcursor⟩ := mem_readsOf_one.mp hp
      have := Int.min_le_right reach.least lo
      simp only [Reach.read]
      omega
  · rcases Int.le_total reach.most (hi + most) with hle | hle
    · exact Or.inr ⟨_, hread hi, by simp [Reach.read, Int.max_eq_right hle]⟩
    · exact Or.inl (Int.max_eq_left hle)
  · rintro y (rfl | ⟨p, hp, rfl⟩)
    · exact Int.le_max_left _ _
    · obtain ⟨m, hm, hlook, hcursor⟩ := mem_readsOf_one.mp hp
      obtain ⟨n, hlook', hle⟩ := hlooks m hm
      rw [hlook, Option.some.injEq] at hlook'
      simp only [Reach.read]
      omega

theorem exists_tracked (hd : d.IsStep) (hw : d.IsWritable) (lo hi : Int) (reach : Reach) :
    ∃ lo' hi' reach', Reach.track lo hi reach d.toInstr = .ok (lo', hi', reach') ∧
      d.Tracked lo hi reach lo' hi' reach' := by
  -- A directive with one move, that looks at `n` bytes.
  have hone : ∀ {n : Nat} {shift : Int}, d.moves = [⟨some n, shift⟩] →
      d.Tracked lo hi reach (lo + shift) (hi + shift) (reach.read lo hi n) := by
    intro n shift h
    exact .of_looks (by simp [h]) (by simp [h]) (by simp [h]) (by simp [h]) (by simp [h])
  cases d with
  | accept => exact absurd rfl hd.ne_accept
  | literal bs => exact ⟨_, _, _, rfl, hone rfl⟩
  | masked bs mask => exact ⟨_, _, _, rfl, hone rfl⟩
  | within c => exact ⟨_, _, _, rfl, hone rfl⟩
  | outside c => exact ⟨_, _, _, rfl, hone rfl⟩
  | seek delta => exact ⟨_, _, _, rfl, .of_move rfl⟩
  | atStart =>
    have ht : Directive.atStart.Tracked lo hi reach (lo + 0) (hi + 0) reach := .of_move rfl
    simp only [Int.add_zero] at ht
    exact ⟨_, _, _, rfl, ht⟩
  | atEnd =>
    have ht := hone rfl
    simp only [Int.add_zero] at ht
    exact ⟨_, _, _, rfl, ht⟩
  | alternation choices =>
    have hne : choices ≠ [] := fun h => hd.ne_alternation (congrArg alternation h)
    obtain ⟨least, most, htrack, hspans⟩ := Reach.track_alternation hne hw.1 lo hi reach
    refine ⟨_, _, _, htrack, ?_⟩
    have hmove : ∀ c ∈ choices, (⟨some c.size, c.size⟩ : Move) ∈ (alternation choices).moves :=
      fun c hc => List.mem_map_of_mem hc
    have hsize : ∀ m ∈ (alternation choices).moves, ∃ n : Nat, m = ⟨some n, n⟩ ∧
        least ≤ n ∧ n ≤ most := by
      intro m hm
      obtain ⟨c, hc, rfl⟩ := List.mem_map.mp hm
      exact ⟨c.size, rfl, hspans.within _ (List.mem_map_of_mem hc)⟩
    obtain ⟨c, hc, hleast⟩ := List.mem_map.mp hspans.least_mem
    obtain ⟨c', hc', hmost⟩ := List.mem_map.mp hspans.most_mem
    refine .of_looks ?_ ⟨_, hmove c' hc', by rw [hmost]⟩ ?_ ⟨_, hmove c hc, by rw [hleast]⟩
      ⟨_, hmove c' hc', by rw [hmost]⟩
    · intro m hm
      obtain ⟨n, rfl, hn⟩ := hsize m hm
      exact ⟨n, rfl, hn.2⟩
    · intro m hm
      obtain ⟨n, rfl, hn⟩ := hsize m hm
      exact ⟨by simpa using hn.1, by simpa using hn.2⟩

theorem moves_ne_nil (hd : d.IsStep) : d.moves ≠ [] := by
  cases d with
  | alternation choices =>
    intro h
    exact hd.ne_alternation (congrArg alternation (List.map_eq_nil_iff.mp h))
  | _ => exact List.cons_ne_nil _ _

end Directive

/-! ## Code -/

namespace Reach

open Directive

variable {ds : List Directive} {lo hi : Int} {reach found : Reach}

/-- The analysis of the code of directives goes wrong only if the cursor or the reach gets out of
range, and gives the outermost offsets of what is looked at. -/
theorem analyzeFrom_eq_ok_iff (hds : ∀ d ∈ ds, d.IsStep ∧ d.IsWritable) :
    analyzeFrom lo hi reach (acceptedCode ds) = .ok found ↔
      ((∀ x ∈ stopsOf lo ds, -limit ≤ x) ∧ ∀ x ∈ stopsOf hi ds, x ≤ limit) ∧
      Outward.Reads (· ≤ ·) (fun _ => 0) reach.least lo ds found.least ∧
      Outward.Reads (· ≥ ·) (fun n => n) reach.most hi ds found.most ∧
      found.isAllowed = true := by
  induction ds generalizing lo hi reach with
  | nil =>
    rw [analyzeFrom_acceptedCode_nil, outward_le.reads_nil_iff, outward_ge.reads_nil_iff]
    simp only [stopsOf_nil]
    constructor
    · intro h
      split at h
      · next hallowed =>
        cases h
        exact ⟨⟨fun x hx => hx.elim, fun x hx => hx.elim⟩, rfl, rfl, hallowed⟩
      · cases h
    · rintro ⟨-, hleast, hmost, hallowed⟩
      obtain rfl : found = reach := by
        cases found
        cases reach
        simp_all
      rw [if_pos hallowed]
  | cons d rest ih =>
    obtain ⟨⟨hd, hw⟩, hrest⟩ := List.forall_mem_cons.mp hds
    have hways := exists_way fun d' hd' => moves_ne_nil (hrest d' hd').1
    obtain ⟨lo', hi', reach', htrack, ht⟩ := exists_tracked hd hw lo hi reach
    rw [analyzeFrom_acceptedCode_cons hd hw, htrack,
      outward_le.reads_cons_iff hways ht.least_stop ht.least_read,
      outward_ge.reads_cons_iff hways ht.most_stop ht.most_read,
      outward_le.stops_cons_iff hways ht.least_stop,
      outward_ge.stops_cons_iff hways ht.most_stop]
    simp only [bind, Except.bind]
    by_cases hrange : lo' < -limit ∨ limit < hi'
    · rw [if_pos hrange]
      refine iff_of_false (by simp) ?_
      rintro ⟨⟨⟨hlo, -⟩, hhi, -⟩, -⟩
      omega
    · rw [if_neg hrange, ih hrest]
      constructor
      · rintro ⟨⟨hlo, hhi⟩, hreads⟩
        exact ⟨⟨⟨by omega, hlo⟩, by omega, hhi⟩, hreads⟩
      · rintro ⟨⟨⟨-, hlo⟩, -, hhi⟩, hreads⟩
        exact ⟨⟨hlo, hhi⟩, hreads⟩

/-- A reach is exact for some directives: it goes from the first byte that is looked at on some
way to the last one, and has the start of the literal. -/
structure IsExact (reach : Reach) (ds : List Directive) : Prop where
  least : IsLeast (insert 0 ((fun r : Int × Nat => r.1) '' readsOf 0 ds)) reach.least
  most : IsGreatest (insert 0 ((fun r : Int × Nat => r.1 + r.2) '' readsOf 0 ds)) reach.most

theorem isExact_iff :
    reach.IsExact ds ↔ Outward.Reads (· ≤ ·) (fun _ => 0) 0 0 ds reach.least ∧
      Outward.Reads (· ≥ ·) (fun n => n) 0 0 ds reach.most := by
  have hfirst : (fun p : Int × Nat => p.1 + 0) = fun p => p.1 := funext fun p => Int.add_zero p.1
  unfold Outward.Reads
  rw [hfirst]
  constructor
  · rintro ⟨hleast, hmost⟩
    exact ⟨⟨hleast.1, fun y hy => hleast.2 hy⟩, hmost.1, fun y hy => hmost.2 hy⟩
  · rintro ⟨hleast, hmost⟩
    exact ⟨⟨hleast.1, fun y hy => hleast.2 y hy⟩, hmost.1, fun y hy => hmost.2 y hy⟩

end Reach

namespace Automaton

open Directive

/-- Code is accepted exactly if it is written for directives with one `accept` at the end, where
the cursor stays in range on each way, and so does all that is looked at. The automaton has these
directives and their reach. -/
theorem ofCode_eq_ok_iff_exists_ways {code : Code} {a : Automaton} :
    ofCode code = .ok a ↔ a.code = code ∧ ∃ ds : List Directive,
      a.directives = ds ++ [.accept] ∧
      (∀ d ∈ ds, d.IsShort ∧ d ≠ .accept ∧ d ≠ .alternation []) ∧
      Assembler.assemble (ds ++ [.accept]) = .ok code ∧
      (∀ way ∈ ways ds, ∀ x ∈ Move.stops 0 way, -Reach.limit ≤ x ∧ x ≤ Reach.limit) ∧
      a.reach.IsExact ds ∧ -Reach.limit ≤ a.reach.least ∧ a.reach.most ≤ Reach.limit := by
  have hstops : ∀ {ds : List Directive},
      (∀ way ∈ ways ds, ∀ x ∈ Move.stops 0 way, -Reach.limit ≤ x ∧ x ≤ Reach.limit) ↔
        (∀ x ∈ stopsOf 0 ds, -Reach.limit ≤ x) ∧ ∀ x ∈ stopsOf 0 ds, x ≤ Reach.limit :=
    forall_stopsOf.symm.trans forall₂_and
  rw [ofCode_eq_ok_iff]
  unfold Reach.analyze
  constructor
  · rintro ⟨hanalyze, hcode, hdirectives⟩
    obtain ⟨ds, rfl, hds⟩ := Reach.exists_directives hanalyze
    obtain ⟨hrange, hleast, hmost, hallowed⟩ := (Reach.analyzeFrom_eq_ok_iff hds).mp hanalyze
    have hassemble := Reach.assemble_eq_ok_iff.mpr ⟨fun d hd => (hds d hd).2, rfl⟩
    refine ⟨hcode, ds, ?_, fun d hd => ?_, hassemble, hstops.mpr hrange,
      Reach.isExact_iff.mpr ⟨hleast, hmost⟩, of_decide_eq_true hallowed⟩
    · rw [hdirectives, Reach.ofCode_acceptedCode hds]
    · exact ⟨(hds d hd).1.short, (hds d hd).1.ne_accept, (hds d hd).1.ne_alternation⟩
  · rintro ⟨hcode, ds, hdirectives, hds, hassemble, hrange, hexact, hallowed⟩
    obtain ⟨hwritable, rfl⟩ := Reach.assemble_eq_ok_iff.mp hassemble
    obtain ⟨hleast, hmost⟩ := Reach.isExact_iff.mp hexact
    have hsteps : ∀ d ∈ ds, d.IsStep ∧ d.IsWritable :=
      fun d hd => ⟨⟨(hds d hd).1, (hds d hd).2.1, (hds d hd).2.2⟩, hwritable d hd⟩
    refine ⟨(Reach.analyzeFrom_eq_ok_iff hsteps).mpr ⟨hstops.mp hrange, hleast, hmost,
      decide_eq_true hallowed⟩, hcode, ?_⟩
    rw [hdirectives, Reach.ofCode_acceptedCode hsteps]

end Automaton

end StreamMatch
