-- The code of some directives and what is read from it: the same directives, with the choices
-- of each alternation. Any code at all is read as instructions, up to where it stops being the
-- code of one.
import Mathlib.Data.List.Basic
import StreamMatch.Proofs.Automaton.Coding

namespace StreamMatch

/-! ## Code that is read -/

namespace Instr

variable {is : List Instr} {code : Code}

theorem items_encode {i : Instr} (h : i.IsEncodable) (rest : Code) :
    items (i.encode ++ rest) = .ok i :: items rest :=
  items_of_decode_ok (decode_encode h rest)

/-- Instructions that were written one after the other are read one after the other. -/
theorem items_flatMap_encode (h : ∀ i ∈ is, i.IsEncodable) :
    items (is.flatMap encode) = is.map .ok := by
  induction is with
  | nil => exact items_nil
  | cons i rest ih =>
    rw [List.flatMap_cons, items_encode (h i List.mem_cons_self),
      ih fun j hj => h j (List.mem_cons_of_mem i hj), List.map_cons]

/-- Code is the code of the instructions that are read from it, followed by bytes where no
instruction starts. There is an error if there are such bytes, and it comes last. -/
theorem items_spec (code : Code) :
    ∃ (is : List Instr) (rest : Code),
      code = is.flatMap encode ++ rest ∧ (∀ i ∈ is, i.IsEncodable) ∧
      (rest = [] ∧ items code = is.map .ok ∨
        rest ≠ [] ∧ ∃ e, decode rest = .error e ∧ items code = is.map .ok ++ [.error e]) := by
  induction hn : code.length using Nat.strongRecOn generalizing code with
  | ind n ih =>
    rcases code with _ | ⟨opcode, operands⟩
    · exact ⟨[], [], rfl, fun i hi => absurd hi List.not_mem_nil, Or.inl ⟨rfl, items_nil⟩⟩
    · rcases hd : decode (opcode :: operands) with e | ⟨i, rest⟩
      · refine ⟨[], opcode :: operands, rfl, fun i hi => absurd hi List.not_mem_nil,
          Or.inr ⟨List.cons_ne_nil _ _, e, hd, ?_⟩⟩
        exact items_of_decode_error hd
      · obtain ⟨hi, hcode⟩ := decode_eq_ok_iff.mp hd
        obtain ⟨is, rest', hrest, his, hitems⟩ := ih rest.length (hn ▸ decode_length hd) rest rfl
        refine ⟨i :: is, rest', ?_, List.forall_mem_cons.mpr ⟨hi, his⟩, ?_⟩
        · rw [hcode, hrest, List.flatMap_cons, List.append_assoc]
        · rw [items_of_decode_ok hd]
          rcases hitems with ⟨hnil, hitems⟩ | ⟨hne, e, he, hitems⟩
          · exact Or.inl ⟨hnil, by rw [hitems, List.map_cons]⟩
          · exact Or.inr ⟨hne, e, he, by rw [hitems, List.map_cons, List.cons_append]⟩

theorem encode_ne_nil (i : Instr) : i.encode ≠ [] := by
  cases i <;> exact List.cons_ne_nil _ _

/-- Each item takes at least one byte. -/
theorem length_items_le (code : Code) : (items code).length ≤ code.length := by
  induction hn : code.length using Nat.strongRecOn generalizing code with
  | ind n ih =>
    rcases code with _ | ⟨opcode, operands⟩
    · simp
    · rcases hd : decode (opcode :: operands) with e | ⟨i, rest⟩
      · rw [items_of_decode_error hd, ← hn]
        simp
      · have hlt := decode_length hd
        have hrest := ih rest.length (hn ▸ hlt) rest rfl
        rw [items_of_decode_ok hd, List.length_cons]
        omega

end Instr

/-! ## Choices -/

namespace Alternative

/-- The instruction of a choice. -/
def toInstr : Alternative → Instr
  | literal bs => .literal bs
  | masked bs mask => .masked bs mask

/-- The code of some choices, one after the other. -/
def codeOf (choices : List Alternative) : Code := choices.flatMap fun c => c.toInstr.encode

variable {choices : List Alternative}

theorem codeOf_eq (choices : List Alternative) :
    codeOf choices = (choices.map toInstr).flatMap Instr.encode := by
  unfold codeOf
  rw [List.flatMap_map]

theorem items_codeOf (h : ∀ c ∈ choices, c.toInstr.IsEncodable) :
    Instr.items (codeOf choices) = choices.map fun c => .ok c.toInstr := by
  rw [codeOf_eq, Instr.items_flatMap_encode (List.forall_mem_map.mpr h), List.map_map]
  rfl

theorem ofItems_map (choices : List Alternative) :
    ofItems (choices.map fun c => .ok c.toInstr) = choices := by
  induction choices with
  | nil => rfl
  | cons c rest ih =>
    rw [List.map_cons, ofItems]
    cases c with
    | literal bs => exact congrArg (literal bs :: ·) ih
    | masked bs mask => exact congrArg (masked bs mask :: ·) ih

end Alternative

/-! ## Directives -/

namespace Directive

/-- The instruction of a directive. -/
def toInstr : Directive → Instr
  | accept => .accept
  | literal bs => .literal bs
  | masked bs mask => .masked bs mask
  | within c => .within c
  | outside c => .outside c
  | seek delta => .seek delta
  | atStart => .atStart
  | atEnd => .atEnd
  | alternation choices => .alternation (Alternative.codeOf choices)

/-- The lengths in the directive fit in two bytes each, and masks are as long as the bytes that
they mask. -/
def IsWritable : Directive → Prop
  | literal bs => bs.size ≤ Assembler.maxLength
  | masked bs mask => bs.size ≤ Assembler.maxLength ∧ mask.size = bs.size
  | alternation choices => (∀ c ∈ choices, c.toInstr.IsEncodable) ∧
      (Alternative.codeOf choices).length ≤ Assembler.maxLength
  | accept | within _ | outside _ | seek _ | atStart | atEnd => True

/-- The cursor moves by a number that fits in two bytes. -/
def IsShort : Directive → Prop
  | seek delta => Instr.IsShort delta
  | _ => True

variable {d : Directive}

theorem encodable_toInstr (h : d.IsWritable) (hshort : d.IsShort) : d.toInstr.IsEncodable := by
  cases d with
  | seek delta => exact hshort
  | alternation choices => exact h.2
  | _ => exact h

/-- A directive is read back from its instruction. -/
theorem ofInstr_toInstr (h : d.IsWritable) : ofInstr d.toInstr = d := by
  cases d with
  | alternation choices =>
    simp only [toInstr, ofInstr, Alternative.items_codeOf h.1, Alternative.ofItems_map]
  | _ => rfl

end Directive

/-! ## Written code -/

namespace Assembler

open Directive

variable {d : Directive} {ds : List Directive} {i : Instr} {code : Code}

theorem requireShort_eq_ok_iff {n : Nat} : requireShort n = .ok () ↔ n ≤ maxLength := by
  unfold requireShort
  constructor
  · exact fun h => of_decide_eq_true (Checked.of_require h)
  · intro h
    rw [decide_eq_true h, Checked.require_true]

theorem literal_eq_ok_iff {bs : Bytes} :
    literal bs = .ok i ↔ bs.size ≤ maxLength ∧ i = .literal bs := by
  unfold literal
  rw [Checked.bind_eq_ok_iff]
  constructor
  · rintro ⟨u, hshort, hok⟩
    cases hok
    exact ⟨requireShort_eq_ok_iff.mp hshort, rfl⟩
  · rintro ⟨hle, rfl⟩
    exact ⟨(), requireShort_eq_ok_iff.mpr hle, rfl⟩

theorem masked_eq_ok_iff {bs mask : Bytes} :
    masked bs mask = .ok i ↔
      (bs.size ≤ maxLength ∧ mask.size = bs.size) ∧ i = .masked bs mask := by
  unfold masked
  rw [Checked.bind_eq_ok_iff]
  simp only [Checked.bind_eq_ok_iff]
  constructor
  · rintro ⟨u, hsize, u', hshort, hok⟩
    cases hok
    have heq := beq_iff_eq.mp (Checked.of_require hsize)
    exact ⟨⟨requireShort_eq_ok_iff.mp hshort, heq.symm⟩, rfl⟩
  · rintro ⟨⟨hle, hsize⟩, rfl⟩
    refine ⟨(), ?_, (), requireShort_eq_ok_iff.mpr hle, rfl⟩
    rw [hsize, beq_self_eq_true, Checked.require_true]

theorem choice_eq_ok_iff {c : Alternative} :
    choice c = .ok i ↔ c.toInstr.IsEncodable ∧ i = c.toInstr := by
  cases c with
  | literal bs => exact literal_eq_ok_iff
  | masked bs mask => exact masked_eq_ok_iff

theorem choicesCode_eq_ok_iff {choices : List Alternative} :
    choicesCode choices = .ok code ↔
      (∀ c ∈ choices, c.toInstr.IsEncodable) ∧ code = Alternative.codeOf choices := by
  induction choices generalizing code with
  | nil => simp [choicesCode, Checked.pure_eq, Alternative.codeOf, eq_comm]
  | cons c rest ih =>
    unfold choicesCode
    simp only [Checked.bind_eq_ok_iff, choice_eq_ok_iff, ih, List.forall_mem_cons]
    constructor
    · rintro ⟨i, ⟨hc, rfl⟩, body, ⟨hrest, rfl⟩, hok⟩
      cases hok
      exact ⟨⟨hc, hrest⟩, rfl⟩
    · rintro ⟨⟨hc, hrest⟩, rfl⟩
      exact ⟨_, ⟨hc, rfl⟩, _, ⟨hrest, rfl⟩, rfl⟩

theorem instr_eq_ok_iff : instr d = .ok i ↔ d.IsWritable ∧ i = d.toInstr := by
  cases d with
  | literal bs => exact literal_eq_ok_iff
  | masked bs mask => exact masked_eq_ok_iff
  | alternation choices =>
    unfold instr
    simp only [Checked.bind_eq_ok_iff, choicesCode_eq_ok_iff]
    constructor
    · rintro ⟨body, ⟨hchoices, rfl⟩, u, hshort, hok⟩
      cases hok
      exact ⟨⟨hchoices, requireShort_eq_ok_iff.mp hshort⟩, rfl⟩
    · rintro ⟨⟨hchoices, hle⟩, rfl⟩
      exact ⟨_, ⟨hchoices, rfl⟩, (), requireShort_eq_ok_iff.mpr hle, rfl⟩
  | _ => simp [instr, Checked.pure_eq, IsWritable, toInstr, eq_comm]

/-- The code of directives is the code of their instructions, one after the other. It can be
written if each directive can. -/
theorem assemble_eq_ok_iff :
    assemble ds = .ok code ↔
      (∀ d ∈ ds, d.IsWritable) ∧ code = (ds.map toInstr).flatMap Instr.encode := by
  induction ds generalizing code with
  | nil => simp [assemble, Checked.pure_eq, eq_comm]
  | cons d rest ih =>
    unfold assemble
    simp only [Checked.bind_eq_ok_iff, instr_eq_ok_iff, ih, List.forall_mem_cons]
    constructor
    · rintro ⟨i, ⟨hd, rfl⟩, code', ⟨hrest, rfl⟩, hok⟩
      cases hok
      exact ⟨⟨hd, hrest⟩, rfl⟩
    · rintro ⟨⟨hd, hrest⟩, rfl⟩
      exact ⟨_, ⟨hd, rfl⟩, _, ⟨hrest, rfl⟩, rfl⟩

theorem items_assemble (hshort : ∀ d ∈ ds, d.IsShort) (h : assemble ds = .ok code) :
    Instr.items code = ds.map fun d => .ok d.toInstr := by
  obtain ⟨hds, rfl⟩ := assemble_eq_ok_iff.mp h
  have hencodable : ∀ i ∈ ds.map toInstr, i.IsEncodable :=
    List.forall_mem_map.mpr fun d hd => encodable_toInstr (hds d hd) (hshort d hd)
  rw [Instr.items_flatMap_encode hencodable, List.map_map]
  rfl

/-- Directives are read back from their code. -/
theorem ofCode_assemble (hshort : ∀ d ∈ ds, d.IsShort) (h : assemble ds = .ok code) :
    Directive.ofCode code = ds := by
  have hds := (assemble_eq_ok_iff.mp h).1
  unfold Directive.ofCode
  rw [items_assemble hshort h, List.filterMap_map]
  calc ds.filterMap _ = ds.filterMap some :=
        List.filterMap_congr fun d hd => congrArg some (ofInstr_toInstr (hds d hd))
    _ = ds := List.filterMap_some

/-- Reading undoes writing. Directives can be written exactly if their lengths allow it, and what
is read from their code is the instruction of each of them, and what is read from the code of an
alternation is each of its choices. What is read from any code at all is written as the bytes
before the error, which is the last item if there is one. -/
theorem reading_undoes_writing :
    (∀ ds : List Directive, (∀ d ∈ ds, d.IsShort) →
      ((∃ code, assemble ds = .ok code) ↔ ∀ d ∈ ds, d.IsWritable) ∧
      ∀ code, assemble ds = .ok code →
        Instr.items code = ds.map (fun d => .ok d.toInstr) ∧
        ∀ choices, .alternation choices ∈ ds →
          Instr.items (Alternative.codeOf choices) = choices.map fun c => .ok c.toInstr) ∧
    ∀ code : Code, (Instr.items code).length ≤ code.length ∧
      ∃ (is : List Instr) (rest : Code), code = is.flatMap Instr.encode ++ rest ∧
        (rest = [] ∧ Instr.items code = is.map .ok ∨
          rest ≠ [] ∧ ∃ e, Instr.decode rest = .error e ∧
            Instr.items code = is.map .ok ++ [.error e]) := by
  constructor
  · intro ds hshort
    refine ⟨⟨?_, fun h => ⟨_, assemble_eq_ok_iff.mpr ⟨h, rfl⟩⟩⟩, fun code h => ⟨?_, ?_⟩⟩
    · rintro ⟨code, h⟩
      exact (assemble_eq_ok_iff.mp h).1
    · exact items_assemble hshort h
    · intro choices hchoices
      exact Alternative.items_codeOf ((assemble_eq_ok_iff.mp h).1 _ hchoices).1
  · intro code
    obtain ⟨is, rest, hcode, -, hitems⟩ := Instr.items_spec code
    exact ⟨Instr.length_items_le code, is, rest, hcode, hitems⟩

/-- Directives for a literal after `foo` that starts with `a`, or with `b` in any case. -/
def afterFoo : List Directive :=
  [.seek (-3), .literal (.ofList [102, 111, 111]),
    .alternation [.literal (.ofList [97]), .masked (.ofList [66]) (.ofList [0xDF])], .accept]

theorem afterFoo_reading : (∀ d ∈ afterFoo, d.IsShort) ∧
    assemble afterFoo = .ok
      [5, 253, 255, 1, 3, 0, 102, 111, 111, 8, 9, 0, 1, 1, 0, 97, 2, 1, 0, 66, 223, 0] ∧
    Instr.items
        [5, 253, 255, 1, 3, 0, 102, 111, 111, 8, 9, 0, 1, 1, 0, 97, 2, 1, 0, 66, 223, 0] =
      afterFoo.map fun d => .ok d.toInstr := by
  have hshort : ∀ d ∈ afterFoo, d.IsShort := by simp [afterFoo, IsShort, Instr.IsShort]
  have hcode : assemble afterFoo = .ok
      [5, 253, 255, 1, 3, 0, 102, 111, 111, 8, 9, 0, 1, 1, 0, 97, 2, 1, 0, 66, 223, 0] := by rfl
  exact ⟨hshort, hcode, ((reading_undoes_writing.1 afterFoo hshort).2 _ hcode).1⟩

end Assembler

end StreamMatch
