-- What every draft promises: each addition is checked, and one that fails
-- changes nothing.
import StreamMatch.Program.Draft
import StreamMatch.Proofs.Checked

namespace StreamMatch

/-- What was checked of a literal, when `automata` automata were known. -/
structure LiteralSpec.Sound (automata : Nat) (spec : LiteralSpec) : Prop where
  size_pos : 0 < spec.bytes.size
  size_le : spec.bytes.size ≤ LiteralSpec.maxLength
  automaton : ∀ id, spec.automaton = some id → id.toNat < automata

/-- What was checked of a pattern. -/
def PatternSpec.Sound (automata : Nat) : PatternSpec → Prop
  | literals specs => specs ≠ [] ∧ ∀ spec ∈ specs, spec.Sound automata
  | repetition allowed least most =>
    allowed.isEmpty = false ∧ most.value? ≠ some 0 ∧ most.admits least = true

namespace Draft

/-- The patterns and the automata of a draft were all checked. -/
structure Sound (d : Draft) : Prop where
  patterns : ∀ e ∈ d.patterns, e.1.Sound d.automata.size
  automata : ∀ a ∈ d.automata, Automaton.ofCode a.code = .ok a

theorem sound_empty (settings : Settings) (header : Header) :
    ({ settings, header } : Draft).Sound :=
  ⟨fun _ he => absurd he (by simp), fun _ ha => absurd ha (by simp)⟩

end Draft

theorem PatternSpec.Sound.mono {n m : Nat} {spec : PatternSpec} (h : spec.Sound n) (hle : n ≤ m) :
    spec.Sound m := by
  cases spec with
  | literals specs =>
    obtain ⟨hne, hspecs⟩ := h
    refine ⟨hne, fun spec hs => ?_⟩
    obtain ⟨hpos, hsize, hid⟩ := hspecs spec hs
    exact ⟨hpos, hsize, fun id h => Nat.lt_of_lt_of_le (hid id h) hle⟩
  | repetition allowed least most => exact h

theorem LiteralSpec.sound_of_check {automata : Nat} {pattern : PatternId} {spec : LiteralSpec}
    (h : check automata pattern spec = .ok ()) : spec.Sound automata := by
  unfold check at h
  split at h
  · cases h
  · next hempty =>
    split at h
    · cases h
    · next hlong =>
      refine ⟨by omega, by omega, ?_⟩
      intro id hid
      rw [hid] at h
      simp only at h
      split at h
      · cases h
      · omega

namespace Draft

variable {d d' : Draft}

theorem forM_check {automata : Nat} {pattern : PatternId} {specs : List LiteralSpec}
    (h : specs.forM (LiteralSpec.check automata pattern) = .ok ()) :
    ∀ spec ∈ specs, spec.Sound automata := by
  induction specs with
  | nil => exact fun spec hs => absurd hs List.not_mem_nil
  | cons first rest ih =>
    obtain ⟨_, hfirst, hrest⟩ := Checked.bind_eq_ok_iff.mp h
    intro spec hs
    rcases List.mem_cons.mp hs with rfl | hs
    · exact LiteralSpec.sound_of_check hfirst
    · exact ih hrest spec hs

/-! ## What each addition does -/

theorem addLiterals_eq_ok {specs : List LiteralSpec} {id : PatternId}
    (hadd : d.addLiterals specs = .ok (d', id)) :
    specs ≠ [] ∧ specs.forM (LiteralSpec.check d.automata.size (.ofNat d.patterns.size)) = .ok () ∧
      d' = { d with patterns := d.patterns.push (.literals specs, {}) } := by
  unfold Draft.addLiterals at hadd
  by_cases hempty : specs.isEmpty = true
  · simp [hempty, bind, Except.bind, throw, throwThe, MonadExceptOf.throw] at hadd
  · simp only [hempty] at hadd
    obtain ⟨_, hcheck, hadd⟩ := Checked.bind_eq_ok_iff.mp hadd
    cases hadd
    exact ⟨by simpa using hempty, hcheck, rfl⟩

theorem addRepeat_eq_ok {allowed : ByteClass} {least : Nat} {most : Bound} {id : PatternId}
    (hadd : d.addRepeat allowed least most = .ok (d', id)) :
    allowed.isEmpty = false ∧ most.value? ≠ some 0 ∧ most.admits least = true ∧
      d' = { d with patterns := d.patterns.push (.repetition allowed least most, {}) } := by
  unfold Draft.addRepeat at hadd
  by_cases hempty : allowed.isEmpty = true
  · simp [hempty, bind, Except.bind, throw, throwThe, MonadExceptOf.throw] at hadd
  · simp only [hempty] at hadd
    by_cases hbounds : most.value? = some 0 ∨ (!most.admits least) = true
    · rw [if_pos hbounds] at hadd
      cases hadd
    · rw [if_neg hbounds] at hadd
      cases hadd
      rw [not_or] at hbounds
      exact ⟨by simpa using hempty, hbounds.1, by simpa using hbounds.2, rfl⟩

theorem addAutomaton_eq_ok {code : Code} {id : AutomatonId}
    (hadd : d.addAutomaton code = .ok (d', id)) :
    ∃ automaton, Automaton.ofCode code = .ok automaton ∧
      d' = { d with automata := d.automata.push automaton } := by
  unfold Draft.addAutomaton at hadd
  obtain ⟨automaton, hcode, hadd⟩ := Checked.bind_eq_ok_iff.mp hadd
  cases hadd
  refine ⟨automaton, ?_, rfl⟩
  cases hof : Automaton.ofCode code with
  | error e =>
    rw [hof] at hcode
    cases hcode
  | ok a =>
    rw [hof] at hcode
    cases hcode
    rfl

theorem setFlags_eq_ok {pattern : PatternId} {flags : PatternFlags}
    (hset : d.setFlags pattern flags = .ok d') :
    d' = { d with patterns := d.patterns.modify pattern.toNat fun p => (p.1, flags) } := by
  unfold Draft.setFlags at hset
  split at hset
  · cases hset
    rfl
  · cases hset

/-- An addition adds a pattern or an automaton that was checked, or changes the
flags of a pattern. -/
theorem add_cases {a : Addition} {added : Added} (hadd : d.add a = .ok (d', added)) :
    (∃ spec : PatternSpec, spec.Sound d.automata.size ∧
        d' = { d with patterns := d.patterns.push (spec, {}) }) ∨
      (∃ code automaton, Automaton.ofCode code = .ok automaton ∧
        d' = { d with automata := d.automata.push automaton }) ∨
      ∃ (pattern : PatternId) (flags : PatternFlags),
        d' = { d with patterns := d.patterns.modify pattern.toNat fun p => (p.1, flags) } := by
  cases a with
  | literals specs =>
    obtain ⟨⟨d₁, id⟩, hstep, hadd⟩ := Checked.bind_eq_ok_iff.mp hadd
    cases hadd
    obtain ⟨hne, hcheck, hd⟩ := addLiterals_eq_ok hstep
    exact Or.inl ⟨.literals specs, ⟨hne, forM_check hcheck⟩, hd⟩
  | repetition allowed least most =>
    obtain ⟨⟨d₁, id⟩, hstep, hadd⟩ := Checked.bind_eq_ok_iff.mp hadd
    cases hadd
    obtain ⟨hempty, hzero, hadmits, hd⟩ := addRepeat_eq_ok hstep
    exact Or.inl ⟨.repetition allowed least most, ⟨hempty, hzero, hadmits⟩, hd⟩
  | automaton code =>
    obtain ⟨⟨d₁, id⟩, hstep, hadd⟩ := Checked.bind_eq_ok_iff.mp hadd
    cases hadd
    obtain ⟨automaton, hcode, hd⟩ := addAutomaton_eq_ok hstep
    exact Or.inr (Or.inl ⟨code, automaton, hcode, hd⟩)
  | flags pattern flags =>
    obtain ⟨d₁, hstep, hadd⟩ := Checked.bind_eq_ok_iff.mp hadd
    cases hadd
    exact Or.inr (Or.inr ⟨pattern, flags, setFlags_eq_ok hstep⟩)

/-! ## Drafts that stay sound -/

/-- A draft with one more pattern that was checked. -/
theorem Sound.push (h : d.Sound) {spec : PatternSpec} (hs : spec.Sound d.automata.size) :
    { d with patterns := d.patterns.push (spec, {}) }.Sound := by
  refine ⟨fun e he => ?_, h.automata⟩
  rcases Array.mem_push.mp he with he | rfl
  · exact h.patterns e he
  · exact hs

theorem Sound.pushAutomaton (h : d.Sound) {code : Code} {automaton : Automaton}
    (hcode : Automaton.ofCode code = .ok automaton) :
    ({ d with automata := d.automata.push automaton } : Draft).Sound := by
  refine ⟨fun e he => (h.patterns e he).mono ?_, fun a ha => ?_⟩
  · simp
  · rcases Array.mem_push.mp ha with ha | rfl
    · exact h.automata a ha
    · rwa [(Automaton.ofCode_eq_ok_iff.mp hcode).2.1]

theorem Sound.modifyFlags (h : d.Sound) (i : Nat) (flags : PatternFlags) :
    ({ d with patterns := d.patterns.modify i fun p => (p.1, flags) } : Draft).Sound := by
  refine ⟨fun e he => ?_, h.automata⟩
  obtain ⟨j, hj, rfl⟩ := Array.mem_iff_getElem.mp he
  rw [Array.getElem_modify]
  rw [Array.size_modify] at hj
  have hj' := h.patterns _ (Array.getElem_mem hj)
  split
  · exact hj'
  · exact hj'

theorem Sound.add (h : d.Sound) {a : Addition} {added : Added}
    (hadd : d.add a = .ok (d', added)) : d'.Sound := by
  rcases add_cases hadd with ⟨spec, hs, rfl⟩ | ⟨code, automaton, hcode, rfl⟩ | ⟨pattern, flags, rfl⟩
  · exact h.push hs
  · exact h.pushAutomaton hcode
  · exact h.modifyFlags _ _

/-- An addition keeps the header and the settings of a draft. -/
theorem fixed_add {a : Addition} {added : Added} (hadd : d.add a = .ok (d', added)) :
    d'.header = d.header ∧ d'.settings = d.settings := by
  rcases add_cases hadd with ⟨_, _, rfl⟩ | ⟨_, _, _, rfl⟩ | ⟨_, _, rfl⟩ <;> exact ⟨rfl, rfl⟩

/-! ## Sequences of additions -/

theorem addEach_cons_of_ok {a : Addition} {added : Added} (hadd : d.add a = .ok (d', added))
    (rest : List Addition) :
    d.addEach (a :: rest) = ((d'.addEach rest).1, .ok added :: (d'.addEach rest).2) := by
  rw [addEach, hadd]

theorem addEach_cons_of_error {a : Addition} {e : BuildError} (hadd : d.add a = .error e)
    (rest : List Addition) :
    d.addEach (a :: rest) = ((d.addEach rest).1, .error e :: (d.addEach rest).2) := by
  rw [addEach, hadd]

/-- Additions keep a draft sound, whether they succeed or fail. -/
theorem Sound.addEach (h : d.Sound) (as : List Addition) : (d.addEach as).1.Sound := by
  induction as generalizing d with
  | nil => exact h
  | cons a rest ih =>
    rcases hadd : d.add a with e | ⟨d', added⟩
    · rw [addEach_cons_of_error hadd]
      exact ih h
    · rw [addEach_cons_of_ok hadd]
      exact ih (h.add hadd)

theorem fixed_addEach (d : Draft) (as : List Addition) :
    (d.addEach as).1.header = d.header ∧ (d.addEach as).1.settings = d.settings := by
  induction as generalizing d with
  | nil => exact ⟨rfl, rfl⟩
  | cons a rest ih =>
    rcases hadd : d.add a with e | ⟨d', added⟩
    · rw [addEach_cons_of_error hadd]
      exact ih d
    · obtain ⟨hheader, hsettings⟩ := fixed_add hadd
      rw [addEach_cons_of_ok hadd]
      exact ⟨(ih d').1.trans hheader, (ih d').2.trans hsettings⟩

/-- The additions that succeed when they are performed in order. -/
def kept (d : Draft) (as : List Addition) : List Addition :=
  ((as.zip (d.addEach as).2).filter fun x => x.2.isOk).map Prod.fst

theorem kept_cons_of_ok {a : Addition} {added : Added} (hadd : d.add a = .ok (d', added))
    (rest : List Addition) : d.kept (a :: rest) = a :: d'.kept rest := by
  unfold kept
  rw [addEach_cons_of_ok hadd]
  rfl

theorem kept_cons_of_error {a : Addition} {e : BuildError} (hadd : d.add a = .error e)
    (rest : List Addition) : d.kept (a :: rest) = d.kept rest := by
  unfold kept
  rw [addEach_cons_of_error hadd]
  rfl

/-- Without the additions that fail, the same draft is left and the others give the same. -/
theorem addEach_kept (d : Draft) (as : List Addition) :
    d.addEach (d.kept as) = ((d.addEach as).1, (d.addEach as).2.filter Except.isOk) := by
  induction as generalizing d with
  | nil => rfl
  | cons a rest ih =>
    rcases hadd : d.add a with e | ⟨d', added⟩
    · rw [kept_cons_of_error hadd, ih, addEach_cons_of_error hadd]
      rfl
    · rw [kept_cons_of_ok hadd, addEach_cons_of_ok hadd, addEach_cons_of_ok hadd, ih]
      rfl

end Draft

end StreamMatch
