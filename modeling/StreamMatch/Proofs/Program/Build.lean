-- What holds for every program that was built: the facts that scanning relies
-- on, whatever patterns the program was built from.
import StreamMatch.Proofs.Automaton.Bounded
import StreamMatch.Proofs.Literal.Hits
import StreamMatch.Proofs.Program.Draft
import StreamMatch.Proofs.Program.Numbering
import StreamMatch.Proofs.Repeat.Ranks
import StreamMatch.Proofs.Repeat.RunState
import StreamMatch.Proofs.State.Layout

namespace StreamMatch

open Bytes

namespace Program

/-- The bytes of the literals of a program. -/
def literalBytes (p : Program) : List Bytes := p.literals.toList.map Literal.bytes

/-- The literal that starts the runs of a repeat with a byte. -/
def trigger (b : UInt8) (id : RepeatId) : Literal := ⟨.ofList [b], .repetition id, false, none⟩

/-- What scanning relies on. -/
structure Sound (p : Program) : Prop where
  searchable : Searchable p.literalBytes
  table_eq : p.table = .ofLiterals p.literalBytes
  size_le : ∀ l ∈ p.literals, l.bytes.size ≤ p.longest
  history : p.longest + p.lookahead + p.lookbehind ≤ p.layout.historySize
  layout : p.layout.Sound p.repeats
  patternCount : p.layout.patternCount = p.patterns.size
  target_pattern : ∀ l ∈ p.literals, ∀ id, l.target = .pattern id → id.toNat < p.patterns.size
  automaton : ∀ l ∈ p.literals, ∀ id, l.automaton = some id →
    ∃ a, p.automata[id.toNat]? = some a ∧ Automaton.ofCode a.code = .ok a ∧
      a.reach.lookbehind ≤ p.lookbehind ∧ a.reach.lookahead l.bytes.size ≤ p.lookahead
  target_repeat : ∀ (i : Nat) (l : Literal) (id : RepeatId), p.literals[i]? = some l →
    l.target = .repetition id →
    ∃ r b, p.repeats[id.toNat]? = some r ∧ l = trigger b id ∧ r.allowed.contains b = true ∧
      r.rankOf b = p.table.rank (.ofNat i)
  triggered : ∀ r ∈ p.repeats, ∀ b, r.allowed.contains b = true →
    ∃ i : Nat, p.literals[i]? = some (trigger b r.id) ∧ r.rankOf b = p.table.rank (.ofNat i)
  repeat_id : ∀ (i : Nat) (r : Repeat), p.repeats[i]? = some r → r.id.toNat = i
  repeat_pattern : ∀ r ∈ p.repeats, r.pattern.toNat < p.patterns.size
  trackable : ∀ r ∈ p.repeats, r.Trackable

end Program

namespace Draft

/-! ## The parts of a built program -/

/-- The repeats of a draft. -/
def repeats (d : Draft) : List Repeat := d.numbered.filterMap (Numbered.repeat? d.settings d.table)

/-- The reach of each automaton that a literal of a draft has. -/
def reaches (d : Draft) : List (Reach × Nat) := d.literals.filterMap (reach? d.automata)

/-- The size of the history of the program. -/
def historySize (d : Draft) : Nat :=
  max (d.table.longest + (d.reaches.map fun r => r.1.lookahead r.2).foldl max 0 +
    (d.reaches.map fun r => r.1.lookbehind).foldl max 0) 1

/-- The parts of the program that a draft is built to. -/
def parts (d : Draft) : Parts where
  header := d.header
  settings := d.settings
  patterns := (d.numbered.map Numbered.pattern).toArray
  literals := d.literals.toArray
  repeats := d.repeats.toArray
  automata := d.automata

/-- The program that a draft is built to. -/
def program (d : Draft) : Program where
  toParts := d.parts
  table := d.table
  longest := d.table.longest
  lookbehind := (d.reaches.map fun r => r.1.lookbehind).foldl max 0
  lookahead := (d.reaches.map fun r => r.1.lookahead r.2).foldl max 0
  layout := .ofParts d.historySize d.numbered.length d.repeats
  checksum := d.parts.checksum

theorem build_eq (d : Draft) : d.build = (do
    d.settings.check.mapError BuildError.settings
    if maxHistory < d.historySize then throw .historyTooLarge
    return d.program) := rfl

theorem build_eq_ok_iff {d : Draft} {p : Program} : d.build = .ok p ↔
    d.settings.check = .ok () ∧ d.historySize ≤ maxHistory ∧ p = d.program := by
  rw [build_eq]
  rcases d.settings.check with e | u
  · constructor
    · intro h
      cases h
    · rintro ⟨h, -⟩
      cases h
  · by_cases hlt : maxHistory < d.historySize
    · constructor
      · intro h
        simp only [if_pos hlt] at h
        cases h
      · rintro ⟨-, hle, -⟩
        exact absurd hlt (Nat.not_lt_of_le hle)
    · simp only [if_neg hlt]
      constructor
      · intro h
        cases h
        exact ⟨trivial, Nat.le_of_not_lt hlt, rfl⟩
      · rintro ⟨-, -, rfl⟩
        rfl

/-- The parts of the program that is built from a draft. -/
structure Builds (d : Draft) (p : Program) : Prop where
  settings : d.settings.check = .ok ()
  history_le : d.historySize ≤ maxHistory
  header : p.header = d.header
  patterns : p.patterns = (d.numbered.map Numbered.pattern).toArray
  literals : p.literals = d.literals.toArray
  repeats : p.repeats = d.repeats.toArray
  automata : p.automata = d.automata
  table : p.table = d.table
  longest : p.longest = d.table.longest
  lookbehind : p.lookbehind = (d.reaches.map fun r => r.1.lookbehind).foldl max 0
  lookahead : p.lookahead = (d.reaches.map fun r => r.1.lookahead r.2).foldl max 0
  layout : p.layout = .ofParts d.historySize d.numbered.length d.repeats

theorem builds_of_build {d : Draft} {p : Program} (h : d.build = .ok p) : d.Builds p := by
  obtain ⟨hcheck, hle, rfl⟩ := build_eq_ok_iff.mp h
  exact ⟨hcheck, hle, rfl, rfl, rfl, rfl, rfl, rfl, rfl, rfl, rfl, rfl⟩

variable {d : Draft} {p : Program}

/-! ## Patterns and literals -/

theorem sound_of_mem_numbered (hd : d.Sound) {n : Numbered} (hn : n ∈ d.numbered) :
    n.spec.Sound d.automata.size := by
  have hmem : (n.spec, n.flags) ∈ d.patterns.toList := by
    rw [← specs_number 0 0 0 d.patterns.toList]
    exact List.mem_map_of_mem hn
  exact hd.patterns _ (Array.mem_toList_iff.mp hmem)

/-- Each pattern has at least one literal. -/
theorem literals_ne_nil (hd : d.Sound) {n : Numbered} (hn : n ∈ d.numbered) :
    n.literals ≠ [] := by
  have hs := sound_of_mem_numbered hd hn
  unfold Numbered.literals
  unfold PatternSpec.Sound at hs
  cases hspec : n.spec with
  | literals specs =>
    rw [hspec] at hs
    simpa using hs.1
  | repetition allowed least most =>
    rw [hspec] at hs
    simpa using ByteClass.members_ne_nil hs.1

theorem length_le_flatMap {ns : List Numbered} (h : ∀ n ∈ ns, n.literals ≠ []) :
    ns.length ≤ (ns.flatMap Numbered.literals).length := by
  induction ns with
  | nil => exact Nat.le_refl _
  | cons n rest ih =>
    have hn := List.length_pos_iff.mpr (h n List.mem_cons_self)
    have hrest := ih fun m hm => h m (List.mem_cons_of_mem n hm)
    rw [List.flatMap_cons, List.length_append, List.length_cons]
    omega

theorem length_numbered_le (hd : d.Sound) : d.numbered.length ≤ d.literals.length :=
  length_le_flatMap fun _ hn => literals_ne_nil hd hn

/-- A literal belongs to a pattern, and says so. -/
theorem exists_numbered_of_literal {k : Nat} {l : Literal} (h : d.literals[k]? = some l) :
    ∃ before n rest j, d.numbered = before ++ n :: rest ∧
      k = (before.flatMap Numbered.literals).length + j ∧ n.literals[j]? = some l :=
  flatMap_getElem? h

/-- A literal was checked as one of a pattern, or starts the runs of a repeat. -/
theorem literal_cases (hd : d.Sound) {l : Literal} (hl : l ∈ d.literals) :
    ∃ n ∈ d.numbered,
      (n.isRepeat = false ∧ ∃ spec : LiteralSpec, spec.Sound d.automata.size ∧
        l = ⟨spec.bytes, .pattern n.id, spec.anchored, spec.automaton⟩) ∨
      (n.isRepeat = true ∧ ∃ b, l = Program.trigger b n.repeatId) := by
  obtain ⟨n, hn, hl⟩ := List.mem_flatMap.mp hl
  have hs := sound_of_mem_numbered hd hn
  refine ⟨n, hn, ?_⟩
  unfold Numbered.literals at hl
  unfold PatternSpec.Sound at hs
  unfold Numbered.isRepeat
  cases hspec : n.spec with
  | literals specs =>
    rw [hspec] at hs hl
    obtain ⟨spec, hmem, rfl⟩ := List.mem_map.mp hl
    exact Or.inl ⟨rfl, spec, hs.2 spec hmem, rfl⟩
  | repetition allowed least most =>
    rw [hspec] at hl
    obtain ⟨b, -, rfl⟩ := List.mem_map.mp hl
    exact Or.inr ⟨rfl, b, rfl⟩

/-- No literal is empty, and none is too long. -/
theorem size_literal (hd : d.Sound) {l : Literal} (hl : l ∈ d.literals) :
    0 < l.bytes.size ∧ l.bytes.size ≤ LiteralSpec.maxLength := by
  obtain ⟨n, -, ⟨-, spec, hs, rfl⟩ | ⟨-, b, rfl⟩⟩ := literal_cases hd hl
  · exact ⟨hs.size_pos, hs.size_le⟩
  · exact ⟨Nat.one_pos, show 1 ≤ 4096 by decide⟩

theorem searchable (hd : d.Sound) (hlt : d.literals.length ≤ 0x100000000) :
    Searchable (d.literals.map Literal.bytes) := by
  refine ⟨by rwa [List.length_map], ?_⟩
  intro bytes hbytes
  obtain ⟨l, hl, rfl⟩ := List.mem_map.mp hbytes
  exact (size_literal hd hl).1

theorem size_le_longest {l : Literal} (hl : l ∈ d.literals) : l.bytes.size ≤ d.table.longest :=
  LiteralTable.size_le_longest (List.mem_map_of_mem hl)

/-- The identifier of a pattern is its position. -/
theorem id_of_getElem? (hd : d.Sound) (hlt : d.literals.length ≤ 0x100000000) {i : Nat}
    {n : Numbered} (h : d.numbered[i]? = some n) : n.id.toNat = i := by
  obtain ⟨hi, rfl⟩ := List.getElem?_eq_some_iff.mp h
  have hle := length_numbered_le hd
  have hsplit : d.numbered = d.numbered.take i ++ d.numbered[i] :: d.numbered.drop (i + 1) := by
    rw [← List.drop_eq_getElem_cons hi, List.take_append_drop]
  rw [(number_split hsplit).1, Nat.zero_add, List.length_take, Nat.min_eq_left (by omega),
    Id.toNat_ofNat_of_lt (by omega)]

theorem getElem?_numbered (hd : d.Sound) (hlt : d.literals.length ≤ 0x100000000) {n : Numbered}
    (hn : n ∈ d.numbered) : d.numbered[n.id.toNat]? = some n := by
  obtain ⟨i, hi⟩ := List.mem_iff_getElem?.mp hn
  rwa [id_of_getElem? hd hlt hi]

/-- A literal whose target is a pattern comes from that pattern. -/
theorem target_pattern (hd : d.Sound) (hlt : d.literals.length ≤ 0x100000000) {l : Literal}
    (hl : l ∈ d.literals) {id : PatternId} (ht : l.target = .pattern id) :
    ∃ n, d.numbered[id.toNat]? = some n ∧ n.isRepeat = false := by
  obtain ⟨n, hn, ⟨hkind, spec, -, rfl⟩ | ⟨-, b, rfl⟩⟩ := literal_cases hd hl
  · obtain rfl : n.id = id := by simpa using ht
    exact ⟨n, getElem?_numbered hd hlt hn, hkind⟩
  · cases ht

theorem automaton_of_literal (hd : d.Sound) {l : Literal} (hl : l ∈ d.literals)
    {id : AutomatonId} (ha : l.automaton = some id) :
    ∃ a, d.automata[id.toNat]? = some a ∧ Automaton.ofCode a.code = .ok a ∧
      a.reach.lookbehind ≤ (d.reaches.map fun r => r.1.lookbehind).foldl max 0 ∧
      a.reach.lookahead l.bytes.size ≤
        (d.reaches.map fun r => r.1.lookahead r.2).foldl max 0 := by
  have hlt : id.toNat < d.automata.size := by
    obtain ⟨n, -, ⟨-, spec, hs, rfl⟩ | ⟨-, b, rfl⟩⟩ := literal_cases hd hl
    · exact hs.automaton id ha
    · cases ha
  have hget := Array.getElem?_eq_getElem hlt
  have hreach : (d.automata[id.toNat].reach, l.bytes.size) ∈ d.reaches := by
    refine List.mem_filterMap.mpr ⟨l, hl, ?_⟩
    unfold reach?
    simp only [ha, hget, bind, Option.bind, pure]
  refine ⟨_, hget, hd.automata _ (Array.getElem_mem hlt), ?_, ?_⟩
  · exact le_foldl_max (Or.inr (List.mem_map.mpr ⟨_, hreach, rfl⟩))
  · exact le_foldl_max (Or.inr (List.mem_map.mpr ⟨_, hreach, rfl⟩))

/-! ## Repeats -/

theorem repeat?_eq_some {settings : Settings} {table : LiteralTable} {n : Numbered} {r : Repeat}
    (h : Numbered.repeat? settings table n = some r) :
    ∃ least most, n.spec = .repetition r.allowed least most ∧ r.id = n.repeatId ∧
      r.pattern = n.id ∧ r.most = most ∧ r.tracking = .select most settings ∧
      r.ranks = (ranksFrom table n.first r.allowed.members).toArray := by
  unfold Numbered.repeat? at h
  cases hspec : n.spec with
  | literals specs =>
    rw [hspec] at h
    cases h
  | repetition allowed least most =>
    rw [hspec] at h
    cases h
    exact ⟨least, most, rfl, rfl, rfl, rfl, rfl, rfl⟩

theorem length_repeats_le (hd : d.Sound) : d.repeats.length ≤ d.literals.length := by
  unfold repeats
  rw [length_filterMap_repeat?]
  exact Nat.le_trans List.countP_le_length (length_numbered_le hd)

theorem repeat_id (hd : d.Sound) (hlt : d.literals.length ≤ 0x100000000) {i : Nat} {r : Repeat}
    (h : d.repeats[i]? = some r) : r.id.toNat = i := by
  have hi := (List.getElem?_eq_some_iff.mp h).1
  have hle := length_repeats_le hd
  obtain ⟨before, n, rest, hsplit, hlength, hr⟩ := filterMap_getElem? h
  obtain ⟨least, most, -, hid, -⟩ := repeat?_eq_some hr
  rw [length_filterMap_repeat?] at hlength
  rw [hid, (number_split hsplit).2.1, hlength, Id.toNat_ofNat_of_lt (by omega), Nat.zero_add]

/-- A pattern that is a repeat has the repeat that is reported as this pattern. -/
theorem repeat_of_kind (hd : d.Sound) (hlt : d.literals.length ≤ 0x100000000) {n : Numbered}
    (hn : n ∈ d.numbered) {id : RepeatId} (hkind : n.pattern.kind = .repetition id) :
    ∃ r, d.repeats[id.toNat]? = some r ∧ r.pattern = n.id := by
  obtain ⟨r, hr, hid⟩ : ∃ r, Numbered.repeat? d.settings d.table n = some r ∧ r.id = id := by
    unfold Numbered.pattern at hkind
    unfold Numbered.repeat?
    cases hspec : n.spec with
    | literals specs =>
      rw [hspec] at hkind
      cases hkind
    | repetition allowed least most =>
      rw [hspec] at hkind
      exact ⟨_, rfl, by simpa using hkind⟩
  obtain ⟨k, hk⟩ := List.mem_iff_getElem?.mp (List.mem_filterMap.mpr ⟨n, hn, hr⟩)
  obtain ⟨least, most, -, -, hpattern, -⟩ := repeat?_eq_some hr
  have hindex : id.toNat = k := hid ▸ repeat_id hd hlt hk
  exact ⟨r, hindex ▸ hk, hpattern⟩

/-- A repeat comes from the pattern that it is reported as. -/
theorem repeat_pattern (hd : d.Sound) (hlt : d.literals.length ≤ 0x100000000) {r : Repeat}
    (h : r ∈ d.repeats) : ∃ n, d.numbered[r.pattern.toNat]? = some n ∧
      Numbered.repeat? d.settings d.table n = some r := by
  obtain ⟨n, hn, hr⟩ := List.mem_filterMap.mp h
  obtain ⟨least, most, -, -, hpattern, -⟩ := repeat?_eq_some hr
  exact ⟨n, hpattern ▸ getElem?_numbered hd hlt hn, hr⟩

/-- A repeat is tracked in a way that its window allows. -/
theorem repeat_trackable (hd : d.Sound) (hs : d.settings.check = .ok ()) {r : Repeat}
    (h : r ∈ d.repeats) : r.Trackable := by
  obtain ⟨n, hn, hr⟩ := List.mem_filterMap.mp h
  obtain ⟨least, most, hspec, -, -, hmost, htracking, -⟩ := repeat?_eq_some hr
  have hsound := sound_of_mem_numbered hd hn
  rw [hspec] at hsound
  subst hmost
  exact Repeat.trackable_of_select hs hsound.2.1 htracking

theorem map_fst_ranksFrom (table : LiteralTable) (i : Nat) (bs : List UInt8) :
    (ranksFrom table i bs).map Prod.fst = bs := by
  unfold ranksFrom
  apply List.ext_getElem
  · simp
  · intro j hj hj'
    simp

/-- The table of ranks of a repeat has an entry for each byte of the class. -/
theorem bytes_of_repeat {settings : Settings} {table : LiteralTable} {n : Numbered} {r : Repeat}
    (h : Numbered.repeat? settings table n = some r) :
    r.ranks.toList.map Prod.fst = r.allowed.members := by
  obtain ⟨least, most, -, -, -, -, -, hranks⟩ := repeat?_eq_some h
  rw [hranks]
  exact map_fst_ranksFrom _ _ _

theorem sorted_of_repeat {settings : Settings} {table : LiteralTable} {n : Numbered} {r : Repeat}
    (h : Numbered.repeat? settings table n = some r) :
    r.ranks.toList.Pairwise fun x y => x.1 < y.1 := by
  have hsorted := r.allowed.pairwise_members
  rw [← bytes_of_repeat h] at hsorted
  exact List.pairwise_map.mp hsorted

/-- The entries have the ranks of the literals of the repeat, in the order of their bytes. -/
theorem rankOf_member {settings : Settings} {table : LiteralTable} {n : Numbered} {r : Repeat}
    (h : Numbered.repeat? settings table n = some r) {j : Nat} {b : UInt8}
    (hj : r.allowed.members[j]? = some b) : r.rankOf b = table.rank (.ofNat (n.first + j)) := by
  obtain ⟨least, most, -, -, -, -, -, hranks⟩ := repeat?_eq_some h
  refine Repeat.rankOf_eq (sorted_of_repeat h) (k := j) ?_
  rw [hranks]
  unfold ranksFrom
  simp [hj]

theorem literals_of_repeat {settings : Settings} {table : LiteralTable} {n : Numbered} {r : Repeat}
    (h : Numbered.repeat? settings table n = some r) :
    n.literals = r.allowed.members.map fun b => Program.trigger b r.id := by
  obtain ⟨least, most, hspec, hid, -⟩ := repeat?_eq_some h
  unfold Numbered.literals
  rw [hspec, hid]
  rfl

/-- Each byte of the class of a repeat is a literal that starts its runs. -/
theorem triggered {r : Repeat} (h : r ∈ d.repeats) {b : UInt8}
    (hb : r.allowed.contains b = true) :
    ∃ i : Nat, d.literals[i]? = some (Program.trigger b r.id) ∧
      r.rankOf b = d.table.rank (.ofNat i) := by
  obtain ⟨k, hk⟩ := List.mem_iff_getElem?.mp h
  obtain ⟨before, n, rest, hsplit, -, hr⟩ := filterMap_getElem? hk
  obtain ⟨j, hj⟩ := List.mem_iff_getElem?.mp (ByteClass.mem_members.mpr hb)
  have hlit : n.literals[j]? = some (Program.trigger b r.id) := by
    rw [literals_of_repeat hr, List.getElem?_map, hj]
    rfl
  refine ⟨(before.flatMap Numbered.literals).length + j, ?_, ?_⟩
  · unfold literals
    rw [hsplit]
    exact getElem?_flatMap_append before n rest hlit
  · have hfirst := (number_split hsplit).2.2
    rw [Nat.zero_add] at hfirst
    rw [rankOf_member hr hj, hfirst]

/-- A literal whose target is a repeat is a byte of the class of that repeat. -/
theorem target_repeat (hd : d.Sound) (hlt : d.literals.length ≤ 0x100000000) {k : Nat}
    {l : Literal} (hl : d.literals[k]? = some l) {id : RepeatId} (ht : l.target = .repetition id) :
    ∃ r b, d.repeats[id.toNat]? = some r ∧ l = Program.trigger b id ∧
      r.allowed.contains b = true ∧ r.rankOf b = d.table.rank (.ofNat k) := by
  obtain ⟨before, n, rest, j, hsplit, hk, hj⟩ := exists_numbered_of_literal hl
  have hle := length_repeats_le hd
  cases hspec : n.spec with
  | literals specs =>
    unfold Numbered.literals at hj
    rw [hspec] at hj
    obtain ⟨spec, -, rfl⟩ := List.mem_map.mp (List.mem_of_getElem? hj)
    cases ht
  | repetition allowed least most =>
    obtain ⟨r, hr⟩ : ∃ r, Numbered.repeat? d.settings d.table n = some r := by
      unfold Numbered.repeat?
      rw [hspec]
      exact ⟨_, rfl⟩
    have hindex : d.repeats[before.countP Numbered.isRepeat]? = some r := by
      unfold repeats
      rw [hsplit, ← length_filterMap_repeat? d.settings d.table]
      exact getElem?_filterMap_append before rest hr
    have hid := repeat_id hd hlt hindex
    rw [literals_of_repeat hr, List.getElem?_map] at hj
    obtain ⟨b, hb, rfl⟩ := Option.map_eq_some_iff.mp hj
    obtain rfl : r.id = id := by
      simpa [Program.trigger] using ht
    have hfirst := (number_split hsplit).2.2
    rw [Nat.zero_add] at hfirst
    refine ⟨r, b, by rwa [hid], rfl, ByteClass.mem_members.mp (List.mem_of_getElem? hb), ?_⟩
    rw [rankOf_member hr hb, hfirst, hk]

/-! ## Built programs -/

/-- Every program that was built can be scanned with. -/
theorem sound_of_build (hd : d.Sound) (h : d.build = .ok p)
    (hlt : p.literals.size ≤ 0x100000000) : p.Sound := by
  have hb := builds_of_build h
  have hbytes : p.literalBytes = d.literals.map Literal.bytes := by
    unfold Program.literalBytes
    rw [hb.literals]
  have hlen : d.literals.length ≤ 0x100000000 := by
    rw [hb.literals] at hlt
    exact hlt
  have hmem : ∀ {l}, l ∈ p.literals → l ∈ d.literals := by
    intro l hl
    rw [hb.literals] at hl
    exact List.mem_toArray.mp hl
  have hrepeat : ∀ {r}, r ∈ p.repeats → r ∈ d.repeats := by
    intro r hr
    rw [hb.repeats] at hr
    exact List.mem_toArray.mp hr
  have hpatterns : p.patterns.size = d.numbered.length := by
    rw [hb.patterns, List.size_toArray, List.length_map]
  refine ⟨?_, ?_, ?_, ?_, ?_, ?_, ?_, ?_, ?_, ?_, ?_, ?_, ?_⟩
  · rw [hbytes]
    exact searchable hd hlen
  · rw [hb.table, hbytes]
    rfl
  · intro l hl
    rw [hb.longest]
    exact size_le_longest (hmem hl)
  · rw [hb.longest, hb.lookahead, hb.lookbehind, hb.layout]
    exact Nat.le_max_left _ _
  · rw [hb.layout, hb.repeats]
    exact Layout.ofParts_sound (Nat.le_max_right _ _) hb.history_le
      fun i r hr => repeat_id hd hlen hr
  · rw [hb.layout, hpatterns]
    rfl
  · intro l hl id ht
    obtain ⟨n, hn, -⟩ := target_pattern hd hlen (hmem hl) ht
    rw [hpatterns]
    exact (List.getElem?_eq_some_iff.mp hn).1
  · intro l hl id ha
    rw [hb.automata, hb.lookbehind, hb.lookahead]
    exact automaton_of_literal hd (hmem hl) ha
  · intro i l id hl ht
    rw [hb.literals, List.getElem?_toArray] at hl
    rw [hb.repeats, List.getElem?_toArray, hb.table]
    exact target_repeat hd hlen hl ht
  · intro r hr b hbyte
    rw [hb.literals, hb.table]
    simp only [List.getElem?_toArray]
    exact triggered (hrepeat hr) hbyte
  · intro i r hr
    rw [hb.repeats, List.getElem?_toArray] at hr
    exact repeat_id hd hlen hr
  · intro r hr
    obtain ⟨n, hn, -⟩ := repeat_pattern hd hlen (hrepeat hr)
    rw [hpatterns]
    exact (List.getElem?_eq_some_iff.mp hn).1
  · intro r hr
    exact repeat_trackable hd hb.settings (hrepeat hr)

end Draft

/-! ## Ranks and repeats -/

namespace Program.Sound

variable {p : Program} {i j : Nat} {r : Repeat}

theorem size_literalBytes (p : Program) : p.literalBytes.length = p.literals.size := by
  simp [literalBytes]

theorem toNat_ofNat (hp : p.Sound) (hi : i < p.literals.size) :
    (Id.ofNat i : LiteralId).toNat = i := by
  have hle := hp.searchable.length_le
  rw [size_literalBytes] at hle
  exact Id.toNat_ofNat_of_lt (by omega)

theorem rank_lt (hp : p.Sound) (hi : i < p.literals.size) :
    p.table.rank (.ofNat i) < 0x100000000 := by
  have hle := hp.searchable.length_le
  have hrank : p.table.rank (.ofNat i) < p.literalBytes.length := by
    rw [hp.table_eq]
    refine LiteralTable.rank_lt ?_
    rwa [hp.toNat_ofNat hi, size_literalBytes]
  omega

/-- Each rank belongs to one literal. -/
theorem rank_inj (hp : p.Sound) (hi : i < p.literals.size) (hj : j < p.literals.size)
    (h : p.table.rank (.ofNat i) = p.table.rank (.ofNat j)) : i = j := by
  rw [hp.table_eq] at h
  have heq := LiteralTable.rank_inj (by rwa [hp.toNat_ofNat hi, size_literalBytes])
    (by rwa [hp.toNat_ofNat hj, size_literalBytes]) h
  rw [← hp.toNat_ofNat hi, ← hp.toNat_ofNat hj, heq]

theorem getElem?_repeats (hp : p.Sound) (hr : r ∈ p.repeats) :
    p.repeats[r.id.toNat]? = some r := by
  obtain ⟨i, hi⟩ := Array.mem_iff_getElem?.mp hr
  rwa [hp.repeat_id i r hi]

end Program.Sound

end StreamMatch
