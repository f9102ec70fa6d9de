-- What a program consists of: the patterns and the automata that were added to its
-- draft, in the order in which they were added.
import StreamMatch.Proofs.Program.Build

namespace StreamMatch

/-! ## Additions -/

namespace Addition

/-- The pattern that an addition adds. -/
def pattern? : Addition → Option PatternSpec
  | .literals specs => some (.literals specs)
  | .repetition allowed least most => some (.repetition allowed least most)
  | .automaton _ | .flags _ _ => none

/-- The code of the automaton that an addition adds. -/
def code? : Addition → Option Code
  | .automaton code => some code
  | .literals _ | .repetition _ _ _ | .flags _ _ => none

/-- The patterns that are added, in order. -/
def patterns (as : List Addition) : List PatternSpec := as.filterMap pattern?

/-- The flags of pattern `i` after an addition. -/
def flagsAfter (i : Nat) (flags : PatternFlags) : Addition → PatternFlags
  | .flags pattern new => if pattern.toNat = i then new else flags
  | .literals _ | .repetition _ _ _ | .automaton _ => flags

/-- The flags of pattern `i`, the last ones that it was given. -/
def flagsOf (as : List Addition) (i : Nat) : PatternFlags := as.foldl (flagsAfter i) {}

theorem flagsOf_concat (as : List Addition) (a : Addition) (i : Nat) :
    flagsOf (as ++ [a]) i = flagsAfter i (flagsOf as i) a := by
  unfold flagsOf
  rw [List.foldl_append]
  rfl

end Addition

/-- Whether a pattern is a repeat. -/
def PatternSpec.isRepeat : PatternSpec → Bool
  | literals _ => false
  | repetition _ _ _ => true

/-- The literals of a pattern. Those of a repeat are the bytes of its class. -/
def PatternSpec.entries : PatternSpec → List LiteralSpec
  | literals specs => specs
  | repetition allowed _ _ => allowed.members.map fun b => { bytes := .ofList [b] }

/-- A literal as it was added. -/
def Literal.spec (l : Literal) : LiteralSpec := ⟨l.bytes, l.anchored, l.automaton⟩

/-- A repeat as it was added. -/
def Repeat.spec (r : Repeat) : PatternSpec := .repetition r.allowed r.least r.most

namespace Program

/-- The number of the pattern that a literal belongs to. -/
def patternOf? (p : Program) (l : Literal) : Option Nat :=
  match l.target with
  | .pattern id => some id.toNat
  | .repetition id => p.repeats[id.toNat]?.map fun r => r.pattern.toNat

/-- The program has the patterns and the automata that some additions add, in the same
order, and for each pattern its literals and its repeat. -/
structure ConsistsOf (p : Program) (as : List Addition) : Prop where
  flags : p.patterns.toList.map Pattern.flags =
    (List.range (Addition.patterns as).length).map (Addition.flagsOf as)
  literals : p.literals.toList.map (fun l => (l.spec, p.patternOf? l)) =
    (Addition.patterns as).zipIdx.flatMap fun e => e.1.entries.map fun s => (s, some e.2)
  repeats : p.repeats.toList.map (fun r => (r.spec, r.pattern.toNat)) =
    (Addition.patterns as).zipIdx.filter fun e => e.1.isRepeat
  automata : p.automata.toList.map Automaton.code = as.filterMap Addition.code?

end Program

namespace Draft

/-! ## What a draft holds -/

/-- A draft holds what was added to it, and no flags for patterns that it does not have. -/
structure Holds (d : Draft) (done : List Addition) : Prop where
  patterns : d.patterns.toList =
    (Addition.patterns done).zipIdx.map fun e => (e.1, Addition.flagsOf done e.2)
  unset : ∀ i, d.patterns.size ≤ i → Addition.flagsOf done i = {}
  automata : d.automata.toList.map Automaton.code = done.filterMap Addition.code?

theorem holds_empty (settings : Settings) (header : Header) :
    ({ settings, header } : Draft).Holds [] := ⟨rfl, fun _ _ => rfl, rfl⟩

namespace Holds

variable {d d' : Draft} {done : List Addition}

theorem size_eq (h : d.Holds done) : d.patterns.size = (Addition.patterns done).length := by
  rw [← Array.length_toList, h.patterns, List.length_map, List.length_zipIdx]

/-- One more pattern, which has no flags yet. -/
theorem push (h : d.Holds done) {a : Addition} {spec : PatternSpec}
    (hpattern : a.pattern? = some spec) (hcode : a.code? = none)
    (hflags : ∀ i flags, Addition.flagsAfter i flags a = flags) :
    ({ d with patterns := d.patterns.push (spec, {}) } : Draft).Holds (done ++ [a]) := by
  have hsame : ∀ i, Addition.flagsOf (done ++ [a]) i = Addition.flagsOf done i := fun i => by
    rw [Addition.flagsOf_concat, hflags]
  have hpatterns : Addition.patterns (done ++ [a]) = Addition.patterns done ++ [spec] := by
    unfold Addition.patterns
    rw [List.filterMap_append, List.filterMap_cons_some hpattern, List.filterMap_nil]
  refine ⟨?_, fun i hi => ?_, ?_⟩
  · simp only [hsame, hpatterns, Array.toList_push, List.zipIdx_append, List.map_append, h.patterns]
    simp [h.unset _ (Nat.le_of_eq h.size_eq)]
  · rw [Array.size_push] at hi
    rw [hsame, h.unset i (by omega)]
  · rw [List.filterMap_append, List.filterMap_cons_none hcode, List.filterMap_nil, List.append_nil]
    exact h.automata

theorem pushAutomaton (h : d.Holds done) {code : Code} {automaton : Automaton}
    (hcode : Automaton.ofCode code = .ok automaton) :
    ({ d with automata := d.automata.push automaton } : Draft).Holds
      (done ++ [.automaton code]) := by
  have hpatterns : Addition.patterns (done ++ [.automaton code]) = Addition.patterns done := by
    unfold Addition.patterns
    rw [List.filterMap_append]
    exact List.append_nil _
  refine ⟨?_, fun i hi => ?_, ?_⟩
  · simp only [hpatterns, Addition.flagsOf_concat, Addition.flagsAfter]
    exact h.patterns
  · rw [Addition.flagsOf_concat]
    exact h.unset i hi
  · rw [Array.toList_push, List.map_append, h.automata, List.filterMap_append]
    simp [(Automaton.ofCode_eq_ok_iff.mp hcode).2.1, Addition.code?]

/-- Other flags for a pattern that the draft has. -/
theorem modifyFlags (h : d.Holds done) {pattern : PatternId} (flags : PatternFlags)
    (hlt : pattern.toNat < d.patterns.size) :
    ({ d with patterns := d.patterns.modify pattern.toNat fun p => (p.1, flags) } : Draft).Holds
      (done ++ [.flags pattern flags]) := by
  have hpatterns : Addition.patterns (done ++ [.flags pattern flags]) = Addition.patterns done := by
    unfold Addition.patterns
    rw [List.filterMap_append]
    exact List.append_nil _
  refine ⟨?_, fun i hi => ?_, ?_⟩
  · rw [hpatterns, Array.toList_modify, h.patterns]
    refine List.ext_getElem? fun i => ?_
    rw [List.getElem?_modify, List.getElem?_map, List.getElem?_map, List.getElem?_zipIdx,
      Nat.zero_add]
    simp only [Addition.flagsOf_concat, Addition.flagsAfter]
    rcases (Addition.patterns done)[i]? with _ | spec
    · rfl
    · simp only [Option.map_some]
      split <;> rfl
  · rw [Array.size_modify] at hi
    rw [Addition.flagsOf_concat, Addition.flagsAfter, if_neg (by omega)]
    exact h.unset i hi
  · rw [List.filterMap_append]
    exact h.automata.trans (List.append_nil _).symm

theorem add (h : d.Holds done) {a : Addition} {added : Added}
    (hadd : d.add a = .ok (d', added)) : d'.Holds (done ++ [a]) := by
  cases a with
  | literals specs =>
    obtain ⟨⟨d₁, id⟩, hstep, hadd⟩ := Checked.bind_eq_ok_iff.mp hadd
    cases hadd
    obtain ⟨-, -, rfl⟩ := addLiterals_eq_ok hstep
    exact h.push rfl rfl fun _ _ => rfl
  | repetition allowed least most =>
    obtain ⟨⟨d₁, id⟩, hstep, hadd⟩ := Checked.bind_eq_ok_iff.mp hadd
    cases hadd
    obtain ⟨-, -, -, rfl⟩ := addRepeat_eq_ok hstep
    exact h.push rfl rfl fun _ _ => rfl
  | automaton code =>
    obtain ⟨⟨d₁, id⟩, hstep, hadd⟩ := Checked.bind_eq_ok_iff.mp hadd
    cases hadd
    obtain ⟨automaton, hcode, rfl⟩ := addAutomaton_eq_ok hstep
    exact h.pushAutomaton hcode
  | flags pattern flags =>
    obtain ⟨d₁, hstep, hadd⟩ := Checked.bind_eq_ok_iff.mp hadd
    cases hadd
    unfold setFlags at hstep
    split at hstep
    · next hlt =>
      cases hstep
      exact h.modifyFlags flags hlt
    · cases hstep

/-- After additions a draft holds those that succeeded. -/
theorem addEach (h : d.Holds done) (as : List Addition) :
    (d.addEach as).1.Holds (done ++ d.kept as) := by
  induction as generalizing d done with
  | nil => exact (List.append_nil done).symm ▸ h
  | cons a rest ih =>
    rcases hadd : d.add a with e | ⟨d', added⟩
    · rw [addEach_cons_of_error hadd, kept_cons_of_error hadd]
      exact ih h
    · rw [addEach_cons_of_ok hadd, kept_cons_of_ok hadd, List.append_cons]
      exact ih (h.add hadd)

end Holds

/-! ## What is built -/

variable {d : Draft} {p : Program} {as : List Addition}

theorem Holds.specs_eq (h : d.Holds as) : d.numbered.map Numbered.spec = Addition.patterns as := by
  have hspecs := congrArg (List.map Prod.fst) (specs_number 0 0 0 d.patterns.toList)
  rw [List.map_map] at hspecs
  refine hspecs.trans ?_
  rw [h.patterns, List.map_map]
  exact List.zipIdx_map_fst 0 _

theorem Holds.flags_eq (h : d.Holds as) : d.numbered.map Numbered.flags =
    (List.range (Addition.patterns as).length).map (Addition.flagsOf as) := by
  have hflags := congrArg (List.map Prod.snd) (specs_number 0 0 0 d.patterns.toList)
  rw [List.map_map] at hflags
  refine hflags.trans ?_
  rw [h.patterns, List.map_map, List.range_eq_range', ← List.zipIdx_map_snd, List.map_map]
  rfl

/-- A pattern is numbered by its position. -/
theorem map_numbered (hd : d.Sound) (hlt : d.literals.length ≤ 0x100000000) :
    d.numbered.map (fun n => (n.spec, n.id.toNat)) = (d.numbered.map Numbered.spec).zipIdx := by
  refine List.ext_getElem? fun i => ?_
  rw [List.getElem?_map, List.getElem?_zipIdx, List.getElem?_map, Nat.zero_add]
  rcases hn : d.numbered[i]? with _ | n
  · rfl
  · simp only [Option.map_some, id_of_getElem? hd hlt hn]

theorem map_repeats (settings : Settings) (table : LiteralTable) (ns : List Numbered) :
    (ns.filterMap (Numbered.repeat? settings table)).map (fun r => (r.spec, r.pattern.toNat)) =
      (ns.map fun n => (n.spec, n.id.toNat)).filter fun e => e.1.isRepeat := by
  induction ns with
  | nil => rfl
  | cons n rest ih =>
    rw [List.filterMap_cons, List.map_cons, List.filter_cons, ← ih]
    unfold Numbered.repeat?
    cases hspec : n.spec with
    | literals specs => rfl
    | repetition allowed least most => rfl

/-- The literals of a pattern belong to it. -/
theorem map_literals (hd : d.Sound) (hlt : d.literals.length ≤ 0x100000000) (hb : d.Builds p)
    {n : Numbered} (hn : n ∈ d.numbered) :
    n.literals.map (fun l => (l.spec, p.patternOf? l)) =
      n.spec.entries.map fun s => (s, some n.id.toNat) := by
  unfold Numbered.literals PatternSpec.entries
  cases hspec : n.spec with
  | literals specs =>
    rw [List.map_map]
    rfl
  | repetition allowed least most =>
    have hkind : n.pattern.kind = .repetition n.repeatId := by
      unfold Numbered.pattern
      rw [hspec]
    obtain ⟨r, hr, hid⟩ := repeat_of_kind hd hlt hn hkind
    have hget : p.repeats[n.repeatId.toNat]? = some r := by
      rwa [hb.repeats, List.getElem?_toArray]
    simp only [List.map_map]
    refine List.map_congr_left fun b _ => ?_
    simp [Literal.spec, Program.patternOf?, hget, hid]

/-- A program consists of what its draft holds. -/
theorem Holds.consistsOf (h : d.Holds as) (hd : d.Sound) (hbuild : d.build = .ok p)
    (hlt : p.literals.size ≤ 0x100000000) : p.ConsistsOf as := by
  have hb := builds_of_build hbuild
  rw [hb.literals, List.size_toArray] at hlt
  have hnumbered := map_numbered hd hlt
  rw [h.specs_eq] at hnumbered
  refine ⟨?_, ?_, ?_, ?_⟩
  · rw [hb.patterns, ← h.flags_eq, List.map_map]
    refine List.map_congr_left fun n _ => ?_
    unfold Function.comp Numbered.pattern
    cases n.spec <;> rfl
  · rw [hb.literals, ← hnumbered, List.flatMap_map]
    unfold literals
    rw [List.map_flatMap]
    exact List.flatMap_congr fun n hn => map_literals hd hlt hb hn
  · rw [hb.repeats, ← hnumbered]
    exact map_repeats _ _ _
  · rw [hb.automata]
    exact h.automata

end Draft

end StreamMatch
