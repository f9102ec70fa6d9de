-- The settings of a program choose how its repeats are tracked. Two programs that
-- were built from the same patterns differ in nothing else but what follows from
-- that: the layout of the stream states and the checksum.
import StreamMatch.Proofs.Program.Build

namespace StreamMatch

/-- A repeat, tracked as the settings choose. -/
def Repeat.tracked (r : Repeat) (settings : Settings) : Repeat :=
  { r with tracking := .select r.most settings }

@[simp] theorem Repeat.tracked_id (r : Repeat) (settings : Settings) :
    (r.tracked settings).id = r.id := rfl

namespace Program

/-- The parts of a program with other settings. -/
def partsWith (p : Program) (settings : Settings) : Parts :=
  { p.toParts with settings, repeats := p.repeats.map (·.tracked settings) }

/-- A program with other settings. -/
def withSettings (p : Program) (settings : Settings) : Program :=
  { p with
    toParts := p.partsWith settings
    layout := .ofParts p.layout.historySize p.layout.patternCount
      (p.partsWith settings).repeats.toList
    checksum := (p.partsWith settings).checksum }

end Program

namespace Draft

variable {d d' : Draft}

/-- A draft with other settings. -/
def withSettings (d : Draft) (settings : Settings) : Draft := { d with settings }

/-- The settings of a draft do not matter to what is added to it. -/
theorem add_withSettings (d : Draft) (settings : Settings) (a : Addition) :
    (d.withSettings settings).add a =
      (d.add a).map fun result => (result.1.withSettings settings, result.2) := by
  cases a with
  | literals specs =>
    simp only [add, addLiterals, withSettings]
    split
    · rfl
    · rcases specs.forM (LiteralSpec.check d.automata.size (.ofNat d.patterns.size)) with _ | _ <;>
        rfl
  | repetition allowed least most =>
    simp only [add, addRepeat, withSettings]
    split
    · rfl
    · split <;> rfl
  | automaton code =>
    simp only [add, addAutomaton, withSettings]
    rcases Automaton.ofCode code with _ | _ <;> rfl
  | flags pattern flags =>
    unfold withSettings
    by_cases hlt : pattern.toNat < d.patterns.size
    · simp only [add, setFlags, hlt, if_true]
      rfl
    · simp only [add, setFlags, hlt, if_false]
      rfl

theorem addEach_withSettings (d : Draft) (settings : Settings) (as : List Addition) :
    (d.withSettings settings).addEach as =
      ((d.addEach as).1.withSettings settings, (d.addEach as).2) := by
  induction as generalizing d with
  | nil => rfl
  | cons a rest ih =>
    unfold addEach
    rw [add_withSettings]
    rcases d.add a with e | ⟨d₁, added⟩
    · simp only [Except.map, ih]
    · simp only [Except.map, ih]

theorem repeat?_withSettings (a b : Settings) (table : LiteralTable) (n : Numbered) :
    Numbered.repeat? b table n = (Numbered.repeat? a table n).map (·.tracked b) := by
  unfold Numbered.repeat?
  rcases n.spec with _ | _ <;> rfl

theorem repeats_withSettings (d : Draft) (settings : Settings) :
    (d.withSettings settings).repeats = d.repeats.map (·.tracked settings) := by
  have hrepeat : Numbered.repeat? settings d.table =
      fun n => (Numbered.repeat? d.settings d.table n).map (·.tracked settings) :=
    funext (repeat?_withSettings d.settings settings d.table)
  have hsame : (d.withSettings settings).repeats =
      d.numbered.filterMap (Numbered.repeat? settings d.table) := rfl
  rw [hsame, hrepeat, ← List.map_filterMap]
  rfl

/-! ## Building -/

/-- With other settings, a draft is built to the program with those settings. -/
theorem build_withSettings {p : Program} {settings : Settings} (h : d.build = .ok p)
    (hcheck : settings.check = .ok ()) :
    (d.withSettings settings).build = .ok (p.withSettings settings) := by
  obtain ⟨-, hle, rfl⟩ := build_eq_ok_iff.mp h
  have hrepeats := repeats_withSettings d settings
  have hwith : (d.program.partsWith settings).repeats =
      (d.repeats.map (·.tracked settings)).toArray := List.map_toArray
  have hparts : (d.withSettings settings).parts = d.program.partsWith settings := by
    unfold parts Program.partsWith
    rw [hrepeats]
    congr 1
    exact hwith.symm
  refine build_eq_ok_iff.mpr ⟨hcheck, hle, ?_⟩
  unfold Program.withSettings
  rw [hwith, ← hrepeats, ← hparts]
  rfl

/-! ## Ranks -/

/-- Ranks are numbers of 32 bits, also those of bytes that are not in the class. -/
theorem rankOf_lt (hlt : d.literals.length ≤ 0x100000000) {r : Repeat} (hr : r ∈ d.repeats)
    (b : UInt8) : r.rankOf b < 0x100000000 := by
  obtain ⟨n, -, hrepeat⟩ := List.mem_filterMap.mp hr
  obtain ⟨least, most, -, -, -, -, -, hranks⟩ := repeat?_eq_some hrepeat
  unfold Repeat.rankOf
  split
  · next entry hentry =>
    split
    · rw [hranks] at hentry
      obtain ⟨j, b', rfl⟩ : ∃ j b', entry = (b', d.table.rank (.ofNat (n.first + j))) := by
        have hmem := List.mem_toArray.mp (Array.mem_of_getElem? hentry)
        unfold ranksFrom at hmem
        obtain ⟨j, hj, heq⟩ := List.mem_mapIdx.mp hmem
        exact ⟨j, _, heq.symm⟩
      exact LiteralTable.rank_lt_of_length_le (by rwa [List.length_map]) (by decide) _
    · decide
  · decide

theorem rankOf_lt_of_build {p : Program} (h : d.build = .ok p)
    (hids : p.literals.size ≤ 0x100000000) :
    ∀ r ∈ p.repeats, ∀ b, r.rankOf b < 0x100000000 := by
  have hb := builds_of_build h
  rw [hb.literals] at hids
  intro r hr b
  rw [hb.repeats] at hr
  exact rankOf_lt hids (List.mem_toArray.mp hr) b

end Draft

end StreamMatch
