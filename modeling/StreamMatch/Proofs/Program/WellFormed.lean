-- Drafts are built to well-formed programs only. Building can fail for the settings alone, since
-- the limits on literals and on the reach of automata keep the history small.
import StreamMatch.Proofs.Program.Contents

namespace StreamMatch

open Bytes

theorem foldl_max_le {n a : Nat} {xs : List Nat} (ha : a ≤ n) (h : ∀ x ∈ xs, x ≤ n) :
    xs.foldl max a ≤ n := by
  induction xs generalizing a with
  | nil => exact ha
  | cons x rest ih =>
    obtain ⟨hx, hrest⟩ := List.forall_mem_cons.mp h
    exact ih (Nat.max_le.mpr ⟨ha, hx⟩) hrest

theorem LiteralTable.longest_le {literals : List Bytes} {n : Nat}
    (h : ∀ bytes ∈ literals, bytes.size ≤ n) : (ofLiterals literals).longest ≤ n := by
  unfold longest ofLiterals
  simp only [List.foldl_toArray]
  exact foldl_max_le (Nat.zero_le n) fun x hx => by
    obtain ⟨bytes, hbytes, rfl⟩ := List.mem_map.mp hx
    exact h bytes hbytes

namespace Reach

variable {reach : Reach}

theorem lookbehind_le (h : reach.isAllowed = true) : (reach.lookbehind : Int) ≤ limit := by
  have hleast := (of_decide_eq_true h).1
  unfold lookbehind
  unfold limit at *
  omega

theorem lookahead_le (h : reach.isAllowed = true) (size : Nat) :
    (reach.lookahead size : Int) ≤ limit := by
  have hmost := (of_decide_eq_true h).2
  unfold lookahead
  unfold limit at *
  omega

end Reach

namespace Draft

variable {d : Draft} {p : Program}

/-! ## The size of the history -/

/-- The automata of literals were accepted, so their reach is limited. -/
theorem reach_isAllowed (hd : d.Sound) {entry : Reach × Nat} (h : entry ∈ d.reaches) :
    entry.1.isAllowed = true := by
  obtain ⟨l, -, hreach⟩ := List.mem_filterMap.mp h
  obtain ⟨id, -, hreach⟩ := Option.bind_eq_some_iff.mp hreach
  obtain ⟨a, ha, hreach⟩ := Option.bind_eq_some_iff.mp hreach
  cases hreach
  have hcode := hd.automata a (Array.mem_of_getElem? ha)
  exact (Reach.bounded_of_ofCode hcode).1.allowed

theorem historySize_le (hd : d.Sound) : d.historySize ≤ maxHistory := by
  have hlongest : d.table.longest ≤ 4096 := LiteralTable.longest_le fun bytes hbytes => by
    obtain ⟨l, hl, rfl⟩ := List.mem_map.mp hbytes
    exact (size_literal hd hl).2
  have hlimit : (Reach.limit : Int) = (16383 : Nat) := rfl
  have hlookahead : (d.reaches.map fun r => r.1.lookahead r.2).foldl max 0 ≤ 16383 :=
    foldl_max_le (Nat.zero_le _) fun n hn => by
      obtain ⟨entry, hmem, rfl⟩ := List.mem_map.mp hn
      have hle := Reach.lookahead_le (reach_isAllowed hd hmem) entry.2
      omega
  have hlookbehind : (d.reaches.map fun r => r.1.lookbehind).foldl max 0 ≤ 16383 :=
    foldl_max_le (Nat.zero_le _) fun n hn => by
      obtain ⟨entry, hmem, rfl⟩ := List.mem_map.mp hn
      have hle := Reach.lookbehind_le (reach_isAllowed hd hmem)
      omega
  unfold historySize maxHistory
  omega

/-- Building can fail for the settings only. -/
theorem build_of_sound (hd : d.Sound) :
    d.build = (d.settings.check.mapError BuildError.settings).map fun _ => d.program := by
  rw [build_eq, if_neg (Nat.not_lt_of_le (historySize_le hd))]
  cases d.settings.check <;> rfl

theorem exists_build_iff (hd : d.Sound) :
    (∃ p, d.build = .ok p) ↔ d.settings.bitmapLimit ≤ 63 ∧ d.settings.ringLimit ≤ 65534 := by
  have hcheck : d.settings.check = .ok () ↔
      d.settings.bitmapLimit ≤ 63 ∧ d.settings.ringLimit ≤ 65534 := Settings.check_eq_ok_iff _
  rw [← hcheck, build_of_sound hd]
  cases d.settings.check with
  | ok u => exact iff_of_true ⟨_, rfl⟩ rfl
  | error e => exact iff_of_false nofun nofun

theorem settings_of_build_error (hd : d.Sound) {e : BuildError} (h : d.build = .error e) :
    ∃ e', d.settings.check = .error e' ∧ e = .settings e' := by
  rw [build_of_sound hd] at h
  cases hcheck : d.settings.check with
  | ok u =>
    rw [hcheck] at h
    cases h
  | error e' =>
    rw [hcheck] at h
    cases h
    exact ⟨e', rfl, rfl⟩

/-- Where the automaton of the literals can be made, it does not matter that it has to be. -/
theorem buildWith_of_isSearchable {makes : List Bytes → Bool}
    (h : d.table.isSearchable makes = true) :
    d.buildWith makes = d.build.mapError BuildFailure.refused := by
  unfold buildWith build
  rw [h]
  cases d.settings.check <;> rfl

theorem build_of_buildWith {makes : List Bytes → Bool} (h : d.buildWith makes = .ok p) :
    d.build = .ok p := by
  have hsearchable : d.table.isSearchable makes = true := by
    by_contra hnot
    unfold buildWith at h
    rw [Bool.eq_false_iff.mpr hnot] at h
    cases hcheck : d.settings.check with
    | error e =>
      rw [hcheck] at h
      cases h
    | ok u =>
      rw [hcheck] at h
      cases h
  rw [buildWith_of_isSearchable hsearchable] at h
  cases hbuild : d.build with
  | error e =>
    rw [hbuild] at h
    cases h
  | ok q =>
    rw [hbuild] at h
    cases h
    rfl

theorem exists_buildWith_iff (hd : d.Sound) {makes : List Bytes → Bool}
    (h : d.table.isSearchable makes = true) :
    (∃ p, d.buildWith makes = .ok p) ↔
      d.settings.bitmapLimit ≤ 63 ∧ d.settings.ringLimit ≤ 65534 := by
  rw [← exists_build_iff hd]
  refine ⟨fun ⟨p, hp⟩ => ⟨p, build_of_buildWith hp⟩, fun ⟨p, hp⟩ => ⟨p, ?_⟩⟩
  rw [buildWith_of_isSearchable h, hp]
  rfl

/-! ## The tables of ranks -/

/-- The entries that the literals from position `i` on add to the table of ranks of a repeat, if
each literal of that repeat adds its byte with its own rank. -/
def rankEntries (table : LiteralTable) (id : RepeatId) : (i : Nat) → List Literal →
    List (UInt8 × Nat)
  | _, [] => []
  | i, l :: rest =>
    if l.target = .repetition id then
      (byteAt l.bytes 0, table.rank (.ofNat i)) :: rankEntries table id (i + 1) rest
    else rankEntries table id (i + 1) rest

section Entries

variable {table : LiteralTable} {id : RepeatId}

theorem rankEntries_append (i : Nat) (ls ls' : List Literal) :
    rankEntries table id i (ls ++ ls') =
      rankEntries table id i ls ++ rankEntries table id (i + ls.length) ls' := by
  induction ls generalizing i with
  | nil => rfl
  | cons l rest ih =>
    rw [List.cons_append, rankEntries, rankEntries, ih, List.length_cons, Nat.add_right_comm,
      Nat.add_assoc i]
    split <;> rfl

theorem rankEntries_eq_nil {ls : List Literal} (h : ∀ l ∈ ls, l.target ≠ .repetition id)
    (i : Nat) : rankEntries table id i ls = [] := by
  induction ls generalizing i with
  | nil => rfl
  | cons l rest ih =>
    obtain ⟨hl, hrest⟩ := List.forall_mem_cons.mp h
    rw [rankEntries, if_neg hl, ih hrest]

theorem rankEntries_triggers (i : Nat) (bs : List UInt8) :
    rankEntries table id i (bs.map fun b => Program.trigger b id) = ranksFrom table i bs := by
  induction bs generalizing i with
  | nil => rfl
  | cons b rest ih =>
    have hb : (Program.trigger b id).target = .repetition id := rfl
    rw [List.map_cons, rankEntries, if_pos hb, ih]
    unfold ranksFrom
    rw [List.mapIdx_cons]
    simp only [Nat.add_zero, Nat.add_assoc, Nat.add_comm 1]
    rfl

end Entries

/-- No two repeats have the same identifier. -/
theorem repeatId_ne (hd : d.Sound) (hlt : d.literals.length ≤ 0x100000000)
    {before mid rest : List Numbered} {m n : Numbered}
    (h : d.numbered = before ++ m :: (mid ++ n :: rest)) (hm : m.isRepeat = true) :
    m.repeatId ≠ n.repeatId := by
  intro heq
  have hn : d.numbered = (before ++ m :: mid) ++ n :: rest := by
    rw [h, List.append_assoc, List.cons_append]
  have hle := length_numbered_le hd
  have hlen := congrArg List.length hn
  have hcount := List.countP_le_length (p := Numbered.isRepeat) (l := before ++ m :: mid)
  rw [(number_split h).2.1, (number_split hn).2.1] at heq
  rw [List.countP_append, List.countP_cons_of_pos hm] at heq hcount
  simp only [List.length_append, List.length_cons] at hlen hcount
  have hids := congrArg Id.toNat heq
  rw [Id.toNat_ofNat_of_lt (by omega), Id.toNat_ofNat_of_lt (by omega)] at hids
  omega

theorem isRepeat_of_target {n : Numbered} {l : Literal} {id : RepeatId} (hl : l ∈ n.literals)
    (ht : l.target = .repetition id) : n.isRepeat = true ∧ n.repeatId = id := by
  unfold Numbered.literals at hl
  unfold Numbered.isRepeat
  cases hspec : n.spec with
  | literals specs =>
    rw [hspec] at hl
    obtain ⟨spec, -, rfl⟩ := List.mem_map.mp hl
    cases ht
  | repetition allowed least most =>
    rw [hspec] at hl
    obtain ⟨b, -, rfl⟩ := List.mem_map.mp hl
    exact ⟨rfl, by simpa using ht⟩

/-- The table of ranks of a repeat is what its literals add to it, one after the other. -/
theorem ranks_eq_rankEntries (hd : d.Sound) (hlt : d.literals.length ≤ 0x100000000) {r : Repeat}
    (h : r ∈ d.repeats) : r.ranks.toList = rankEntries d.table r.id 0 d.literals := by
  obtain ⟨n, hn, hr⟩ := List.mem_filterMap.mp h
  obtain ⟨least, most, hspec, hid, -, -, -, hranks⟩ := repeat?_eq_some hr
  obtain ⟨before, rest, hsplit⟩ := List.append_of_mem hn
  have hbefore : ∀ l ∈ before.flatMap Numbered.literals, l.target ≠ .repetition r.id := by
    intro l hl ht
    obtain ⟨m, hm, hl⟩ := List.mem_flatMap.mp hl
    obtain ⟨hkind, hmid⟩ := isRepeat_of_target hl ht
    obtain ⟨first, mid, rfl⟩ := List.append_of_mem hm
    rw [List.append_assoc, List.cons_append] at hsplit
    exact repeatId_ne hd hlt hsplit hkind (hmid.trans hid)
  have hrest : ∀ l ∈ rest.flatMap Numbered.literals, l.target ≠ .repetition r.id := by
    intro l hl ht
    obtain ⟨m, hm, hl⟩ := List.mem_flatMap.mp hl
    obtain ⟨-, hmid⟩ := isRepeat_of_target hl ht
    obtain ⟨mid, last, rfl⟩ := List.append_of_mem hm
    have hkind : n.isRepeat = true := by
      unfold Numbered.isRepeat
      rw [hspec]
    exact repeatId_ne hd hlt hsplit hkind (hid.symm.trans hmid.symm)
  have hfirst := (number_split hsplit).2.2
  unfold literals
  rw [hsplit, List.flatMap_append, List.flatMap_cons, rankEntries_append, rankEntries_append,
    rankEntries_eq_nil hbefore, rankEntries_eq_nil hrest, literals_of_repeat hr,
    rankEntries_triggers, ← hfirst, List.nil_append, List.append_nil, hranks]

/-! ## Patterns and repeats -/

theorem kind_of_repeat? {settings : Settings} {table : LiteralTable} {n : Numbered} {r : Repeat}
    (h : Numbered.repeat? settings table n = some r) : n.pattern.kind = .repetition r.id := by
  obtain ⟨least, most, hspec, hid, -⟩ := repeat?_eq_some h
  unfold Numbered.pattern
  rw [hspec, hid]

theorem kind_of_isRepeat_eq_false {n : Numbered} (h : n.isRepeat = false) :
    n.pattern.kind = .literals := by
  unfold Numbered.isRepeat at h
  unfold Numbered.pattern
  cases hspec : n.spec with
  | literals specs => rfl
  | repetition allowed least most =>
    rw [hspec] at h
    cases h

end Draft

/-! ## Well-formed programs -/

namespace Program

/-- The ranks number the literals, the longer ones first and those of the same length as they
were given. -/
structure Ranked (p : Program) : Prop where
  ranks_perm : ((List.range p.literals.size).map fun i => p.table.rank (.ofNat i)).Perm
    (List.range p.literals.size)
  rank_lt_iff : ∀ i < p.literals.size, ∀ j < p.literals.size,
    p.table.rank (.ofNat i) < p.table.rank (.ofNat j) ↔
      LiteralTable.GoesBefore p.literalBytes i j

/-- The table of ranks of a repeat is what its literals add to it. It is sorted, has the bytes of
the class, and gives each of them the rank of its literal. -/
structure HasRanksOf (p : Program) (r : Repeat) : Prop where
  ranks_eq : r.ranks.toList = Draft.rankEntries p.table r.id 0 p.literals.toList
  bytes_eq : r.ranks.toList.map Prod.fst = r.allowed.members
  sorted : r.ranks.toList.Pairwise fun x y => x.1 < y.1
  /-- Exactly one literal is the byte and has the repeat as its target. -/
  rankOf_member : ∀ b, r.allowed.contains b = true →
    ∃ i : Nat, p.literals[i]? = some (trigger b r.id) ∧
      r.rankOf b = p.table.rank (.ofNat i) ∧ r.rankOf b < Repeat.noRank ∧
      ∀ (j : Nat) (l : Literal), p.literals[j]? = some l → l.target = .repetition r.id →
        l.bytes = .ofList [b] → j = i
  rankOf_other : ∀ b, r.allowed.contains b = false → r.rankOf b = Repeat.noRank

/-- Each identifier is that of a part of the program, of the kind that is meant. -/
structure Linked (p : Program) : Prop where
  repeat_id : ∀ (i : Nat) (r : Repeat), p.repeats[i]? = some r → r.id.toNat = i
  repeat_pattern : ∀ r ∈ p.repeats, ∃ pattern, p.patterns[r.pattern.toNat]? = some pattern ∧
    pattern.kind = .repetition r.id
  pattern_repeat : ∀ (i : Nat) (pattern : Pattern) (id : RepeatId),
    p.patterns[i]? = some pattern → pattern.kind = .repetition id →
    ∃ r, p.repeats[id.toNat]? = some r ∧ r.pattern.toNat = i
  target_pattern : ∀ l ∈ p.literals, ∀ id, l.target = .pattern id →
    ∃ pattern, p.patterns[id.toNat]? = some pattern ∧ pattern.kind = .literals
  target_repeat : ∀ l ∈ p.literals, ∀ id, l.target = .repetition id →
    ∃ r b, p.repeats[id.toNat]? = some r ∧ r.allowed.contains b = true ∧ l = trigger b id
  automaton : ∀ l ∈ p.literals, ∀ id, l.automaton = some id →
    ∃ a, p.automata[id.toNat]? = some a ∧ Automaton.ofCode a.code = .ok a

/-- What is needed around a literal, the literal and all that its automaton looks at, is not more
than what is kept around the longest one. -/
structure Spacious (p : Program) : Prop where
  size_pos : ∀ l ∈ p.literals, 0 < l.bytes.size
  size_le : ∀ l ∈ p.literals, l.bytes.size ≤ p.longest
  reach_le : ∀ l ∈ p.literals, ∀ id a, l.automaton = some id → p.automata[id.toNat]? = some a →
    -a.reach.least ≤ p.lookbehind ∧ a.reach.most ≤ l.bytes.size + p.lookahead
  history : p.longest + p.lookahead + p.lookbehind ≤ p.historySize
  history_le : p.historySize ≤ Draft.maxHistory

/-- What holds in every program that is built. -/
structure WellFormed (p : Program) : Prop where
  ranked : p.Ranked
  ranks : ∀ r ∈ p.repeats, p.HasRanksOf r
  linked : p.Linked
  spacious : p.Spacious

variable {p : Program}

/-- A byte of the class of a repeat is one of its literals only. -/
theorem Sound.trigger_unique (hp : p.Sound) {r : Repeat} (hr : r ∈ p.repeats) {i j : Nat}
    {b : UInt8} (hi : p.literals[i]? = some (trigger b r.id)) {l : Literal}
    (hj : p.literals[j]? = some l) (ht : l.target = .repetition r.id)
    (hbytes : l.bytes = .ofList [b]) : j = i := by
  obtain ⟨r₁, b₁, hr₁, hl₁, -, hrank₁⟩ := hp.target_repeat i _ r.id hi rfl
  obtain ⟨r₂, b₂, hr₂, rfl, -, hrank₂⟩ := hp.target_repeat j l r.id hj ht
  have hsame := hp.getElem?_repeats hr
  obtain rfl : r₁ = r := Option.some.inj (hr₁.symm.trans hsame)
  obtain rfl : r₂ = r₁ := Option.some.inj (hr₂.symm.trans hsame)
  obtain rfl : b = b₁ := by simpa [trigger, ofList] using hl₁
  obtain rfl : b₂ = b := by simpa [trigger, ofList] using hbytes
  exact hp.rank_inj (Array.getElem?_eq_some_iff.mp hj).1 (Array.getElem?_eq_some_iff.mp hi).1
    (hrank₂.symm.trans hrank₁)

theorem Sound.rank_lt_size (hp : p.Sound) {i : Nat} (hi : i < p.literals.size) :
    p.table.rank (.ofNat i) < p.literals.size := by
  have hsize := Sound.size_literalBytes p
  rw [hp.table_eq, ← hsize]
  exact LiteralTable.rank_lt (by rwa [hp.toNat_ofNat hi, hsize])

theorem Sound.ranked (hp : p.Sound) : p.Ranked := by
  have hsize := Sound.size_literalBytes p
  constructor
  · rw [hp.table_eq, ← hsize]
    exact LiteralTable.ranks_perm hp.searchable.length_le
  · intro i hi j hj
    rw [hp.table_eq, LiteralTable.rank_lt_rank_iff (by rwa [hp.toNat_ofNat hi, hsize])
      (by rwa [hp.toNat_ofNat hj, hsize]), hp.toNat_ofNat hi, hp.toNat_ofNat hj]

end Program

namespace Draft

variable {d : Draft} {p : Program}

theorem hasRanksOf_of_build (hd : d.Sound) (h : d.build = .ok p)
    (hlt : p.literals.size < 0x100000000) {r : Repeat} (hr : r ∈ p.repeats) :
    p.HasRanksOf r := by
  have hp := sound_of_build hd h (Nat.le_of_lt hlt)
  have hb := builds_of_build h
  have hmem : r ∈ d.repeats := List.mem_toArray.mp (hb.repeats ▸ hr)
  obtain ⟨n, -, hn⟩ := List.mem_filterMap.mp hmem
  refine ⟨?_, bytes_of_repeat hn, sorted_of_repeat hn, fun b hbyte => ?_, fun b hbyte => ?_⟩
  · rw [hb.literals] at hlt
    rw [hb.table, hb.literals]
    exact ranks_eq_rankEntries hd (Nat.le_of_lt hlt) hmem
  · obtain ⟨i, hi, heq⟩ := hp.triggered r hr b hbyte
    have hrank := hp.rank_lt_size (Array.getElem?_eq_some_iff.mp hi).1
    refine ⟨i, hi, heq, ?_, fun j l hj ht hbytes => hp.trigger_unique hr hi hj ht hbytes⟩
    unfold Repeat.noRank
    omega
  · refine Repeat.rankOf_eq_noRank ?_
    rw [bytes_of_repeat hn, ByteClass.mem_members, hbyte]
    exact Bool.false_ne_true

theorem linked_of_build (hd : d.Sound) (h : d.build = .ok p)
    (hlt : p.literals.size ≤ 0x100000000) : p.Linked := by
  have hp := sound_of_build hd h hlt
  have hb := builds_of_build h
  rw [hb.literals] at hlt
  have hpattern : ∀ i : Nat, p.patterns[i]? = d.numbered[i]?.map Numbered.pattern := fun i => by
    rw [hb.patterns, List.getElem?_toArray, List.getElem?_map]
  refine ⟨hp.repeat_id, ?_, ?_, ?_, ?_, ?_⟩
  · intro r hr
    obtain ⟨n, hn, hr⟩ := repeat_pattern hd hlt (List.mem_toArray.mp (hb.repeats ▸ hr))
    refine ⟨n.pattern, ?_, kind_of_repeat? hr⟩
    rw [hpattern, hn]
    rfl
  · intro i pattern id hi hkind
    rw [hpattern] at hi
    obtain ⟨n, hn, rfl⟩ := Option.map_eq_some_iff.mp hi
    obtain ⟨r, hr, hid⟩ := repeat_of_kind hd hlt (List.mem_of_getElem? hn) hkind
    refine ⟨r, by rwa [hb.repeats, List.getElem?_toArray], ?_⟩
    rw [hid, id_of_getElem? hd hlt hn]
  · intro l hl id ht
    obtain ⟨n, hn, hkind⟩ := target_pattern hd hlt (List.mem_toArray.mp (hb.literals ▸ hl)) ht
    refine ⟨n.pattern, ?_, kind_of_isRepeat_eq_false hkind⟩
    rw [hpattern, hn]
    rfl
  · intro l hl id ht
    obtain ⟨i, hi⟩ := Array.mem_iff_getElem?.mp hl
    obtain ⟨r, b, hr, heq, hbyte, -⟩ := hp.target_repeat i l id hi ht
    exact ⟨r, b, hr, hbyte, heq⟩
  · intro l hl id ha
    obtain ⟨a, hget, hcode, -⟩ := hp.automaton l hl id ha
    exact ⟨a, hget, hcode⟩

theorem spacious_of_build (hd : d.Sound) (h : d.build = .ok p)
    (hlt : p.literals.size ≤ 0x100000000) : p.Spacious := by
  have hp := sound_of_build hd h hlt
  have hb := builds_of_build h
  refine ⟨?_, hp.size_le, ?_, hp.history, ?_⟩
  · exact fun l hl => (size_literal hd (List.mem_toArray.mp (hb.literals ▸ hl))).1
  · intro l hl id a ha hget
    obtain ⟨a', hget', -, hbehind, hahead⟩ := hp.automaton l hl id ha
    obtain rfl : a = a' := Option.some.inj (hget.symm.trans hget')
    unfold Reach.lookbehind at hbehind
    unfold Reach.lookahead at hahead
    omega
  · have hle := historySize_le hd
    rw [Program.historySize, hb.layout]
    exact hle

theorem wellFormed_of_build (hd : d.Sound) (h : d.build = .ok p)
    (hlt : p.literals.size < 0x100000000) : p.WellFormed :=
  ⟨(sound_of_build hd h (Nat.le_of_lt hlt)).ranked, fun _ hr => hasRanksOf_of_build hd h hlt hr,
    linked_of_build hd h (Nat.le_of_lt hlt), spacious_of_build hd h (Nat.le_of_lt hlt)⟩

/-- A draft without patterns and automata. -/
def empty (settings : Settings) (header : Header) : Draft := { settings, header }

/-- Additions that fail change neither what the others give nor what is built. Building fails only
if the settings are not valid, and never for the size of the history, and what is built is
well-formed and consists of what was added. If an automaton for the literals has to be made and
can not be, building fails too, and if it can be made nothing else changes. -/
theorem addEach_builds_wellFormed (settings : Settings) (header : Header) (as : List Addition) :
    ((empty settings header).addEach ((empty settings header).kept as)).1.build =
      ((empty settings header).addEach as).1.build ∧
    ((empty settings header).addEach ((empty settings header).kept as)).2 =
      ((empty settings header).addEach as).2.filter Except.isOk ∧
    ((∃ p, ((empty settings header).addEach as).1.build = .ok p) ↔
      settings.bitmapLimit ≤ 63 ∧ settings.ringLimit ≤ 65534) ∧
    (∀ e, ((empty settings header).addEach as).1.build = .error e →
      ∃ e', settings.check = .error e' ∧ e = .settings e') ∧
    (∀ p, ((empty settings header).addEach as).1.build = .ok p →
      p.literals.size < 0x100000000 →
        p.WellFormed ∧ p.ConsistsOf ((empty settings header).kept as)) ∧
    ∀ makes,
      ((empty settings header).addEach ((empty settings header).kept as)).1.buildWith makes =
        ((empty settings header).addEach as).1.buildWith makes ∧
      (((empty settings header).addEach as).1.table.isSearchable makes = true →
        ((∃ p, ((empty settings header).addEach as).1.buildWith makes = .ok p) ↔
          settings.bitmapLimit ≤ 63 ∧ settings.ringLimit ≤ 65534)) ∧
      ∀ p, ((empty settings header).addEach as).1.buildWith makes = .ok p →
        ((empty settings header).addEach as).1.build = .ok p := by
  have hsound : ((empty settings header).addEach as).1.Sound :=
    (sound_empty settings header).addEach as
  have hsettings : ((empty settings header).addEach as).1.settings = settings :=
    (fixed_addEach _ as).2
  have hholds : ((empty settings header).addEach as).1.Holds ((empty settings header).kept as) :=
    (holds_empty settings header).addEach as
  refine ⟨?_, ?_, ?_, ?_, fun p hbuild hlt => ⟨?_, ?_⟩, fun makes => ⟨?_, fun h => ?_, fun p => ?_⟩⟩
  · rw [addEach_kept]
  · rw [addEach_kept]
  · rw [exists_build_iff hsound, hsettings]
  · intro e he
    rw [← hsettings]
    exact settings_of_build_error hsound he
  · exact wellFormed_of_build hsound hbuild hlt
  · exact hholds.consistsOf hsound hbuild (Nat.le_of_lt hlt)
  · rw [addEach_kept]
  · rw [exists_buildWith_iff hsound h, hsettings]
  · exact build_of_buildWith

/-- What is added for the patterns `ab` and `b+`, and two additions that fail. -/
def mixedAdditions : List Addition :=
  [.literals [{ bytes := .ofList [97, 98] }], .literals [], .repetition (.single 98) 1 .infinite,
    .flags ⟨7⟩ {}]

theorem mixedAdditions_wellFormed :
    (empty {} .current).kept mixedAdditions =
      [.literals [{ bytes := .ofList [97, 98] }], .repetition (.single 98) 1 .infinite] ∧
    ∃ p, ((empty {} .current).addEach mixedAdditions).1.build = .ok p ∧
      p.literals.size < 0x100000000 ∧ p.WellFormed ∧ p.ConsistsOf
        [.literals [{ bytes := .ofList [97, 98] }], .repetition (.single 98) 1 .infinite] := by
  obtain ⟨-, -, hbuilds, -, hwell, -⟩ := addEach_builds_wellFormed {} .current mixedAdditions
  obtain ⟨p, hp⟩ := hbuilds.mpr ⟨by decide, by decide⟩
  have hsize : p.literals.size < 0x100000000 := by
    rw [(builds_of_build hp).literals]
    decide
  obtain ⟨hformed, hconsists⟩ := hwell p hp hsize
  have hkept : (empty {} .current).kept mixedAdditions =
      [.literals [{ bytes := .ofList [97, 98] }], .repetition (.single 98) 1 .infinite] := by decide
  exact ⟨hkept, p, hp, hsize, hformed, hkept ▸ hconsists⟩

end Draft

end StreamMatch
