-- The analysis of the code of an automaton, one instruction after the other. Only the code of
-- directives that have one `accept`, at their end, passes it.
import StreamMatch.Automaton.Reach
import StreamMatch.Proofs.Automaton.Assembled

namespace StreamMatch

namespace Alternative

/-- How many bytes a choice takes. -/
def size : Alternative → Nat
  | literal bs => bs.size
  | masked bs _ => bs.size

end Alternative

/-! ## Lengths of choices -/

namespace Reach

variable {choices : List Alternative} {lengths found : Option (Nat × Nat)} {body : Code}
  {least most : Nat}

/-- The bounds of some lengths and one more. -/
def mergedWith (lengths : Option (Nat × Nat)) (n : Nat) : Nat × Nat :=
  match lengths with
  | some (least, most) => (min least n, max most n)
  | .none => (n, n)

/-- The bounds of some lengths and of those of some choices. -/
def lengthsWith (lengths : Option (Nat × Nat)) (choices : List Alternative) :
    Option (Nat × Nat) :=
  choices.foldl (fun found c => some (mergedWith found c.size)) lengths

theorem choiceLengths_codeOf (h : ∀ c ∈ choices, c.toInstr.IsEncodable) :
    choiceLengths lengths (Alternative.codeOf choices) = .ok (lengthsWith lengths choices) := by
  induction choices generalizing lengths with
  | nil =>
    unfold choiceLengths
    rfl
  | cons c rest ih =>
    obtain ⟨hc, hrest⟩ := List.forall_mem_cons.mp h
    have hd := Instr.decode_encode hc (Alternative.codeOf rest)
    have hcode : Alternative.codeOf (c :: rest) = c.toInstr.encode ++ Alternative.codeOf rest :=
      List.flatMap_cons
    rw [hcode]
    rcases hcons : c.toInstr.encode ++ Alternative.codeOf rest with _ | ⟨opcode, operands⟩
    · exact absurd (List.append_eq_nil_iff.mp hcons).1 (Instr.encode_ne_nil _)
    · rw [hcons] at hd
      rw [choiceLengths]
      split
      · next e he =>
        rw [he] at hd
        cases hd
      · next i rest' he =>
        rw [he] at hd
        cases hd
        cases c with
        | literal bs => exact ih hrest
        | masked bs mask => exact ih hrest

/-- The code of an alternation has lengths only if it is the code of choices. -/
theorem exists_choices (h : choiceLengths lengths body = .ok found) :
    ∃ choices, body = Alternative.codeOf choices ∧ ∀ c ∈ choices, c.toInstr.IsEncodable := by
  induction hn : body.length using Nat.strongRecOn generalizing body lengths with
  | ind n ih =>
    rcases body with _ | ⟨opcode, operands⟩
    · exact ⟨[], rfl, fun c hc => absurd hc List.not_mem_nil⟩
    · rw [choiceLengths] at h
      split at h
      · cases h
      · next i rest hd =>
        obtain ⟨hi, hcode⟩ := Instr.encode_of_decode hd
        have hlt := Instr.decode_length hd
        split at h
        · next bs hd' =>
          obtain ⟨choices, rfl, hchoices⟩ := ih rest.length (hn ▸ hlt) h rfl
          exact ⟨.literal bs :: choices, hcode, List.forall_mem_cons.mpr ⟨hi, hchoices⟩⟩
        · next bs mask hd' =>
          obtain ⟨choices, rfl, hchoices⟩ := ih rest.length (hn ▸ hlt) h rfl
          exact ⟨.masked bs mask :: choices, hcode, List.forall_mem_cons.mpr ⟨hi, hchoices⟩⟩
        · cases h

/-- The least and the greatest one of some sizes. -/
structure Spans (sizes : List Nat) (least most : Nat) : Prop where
  least_mem : least ∈ sizes
  most_mem : most ∈ sizes
  within : ∀ n ∈ sizes, least ≤ n ∧ n ≤ most

theorem Spans.merge {sizes : List Nat} (h : Spans sizes least most) (n : Nat) :
    Spans (sizes ++ [n]) (min least n) (max most n) := by
  refine ⟨?_, ?_, fun k hk => ?_⟩
  · rcases Nat.le_total least n with hle | hle
    · rw [Nat.min_eq_left hle]
      exact List.mem_append_left _ h.least_mem
    · rw [Nat.min_eq_right hle]
      exact List.mem_append_right _ (List.mem_singleton.mpr rfl)
  · rcases Nat.le_total most n with hle | hle
    · rw [Nat.max_eq_right hle]
      exact List.mem_append_right _ (List.mem_singleton.mpr rfl)
    · rw [Nat.max_eq_left hle]
      exact List.mem_append_left _ h.most_mem
  · rcases List.mem_append.mp hk with hk | hk
    · have := h.within k hk
      omega
    · rw [List.mem_singleton.mp hk]
      omega

theorem lengthsWith_some {sizes : List Nat} (h : Spans sizes least most)
    (choices : List Alternative) :
    ∃ least' most', lengthsWith (some (least, most)) choices = some (least', most') ∧
      Spans (sizes ++ choices.map (·.size)) least' most' := by
  induction choices generalizing sizes least most with
  | nil => exact ⟨least, most, rfl, by rwa [List.map_nil, List.append_nil]⟩
  | cons c rest ih =>
    obtain ⟨least', most', hrest, hspans⟩ := ih (h.merge c.size)
    refine ⟨least', most', hrest, ?_⟩
    rwa [List.append_assoc] at hspans

theorem lengthsWith_none (h : choices ≠ []) :
    ∃ least most, lengthsWith .none choices = some (least, most) ∧
      Spans (choices.map (·.size)) least most := by
  rcases choices with _ | ⟨c, rest⟩
  · exact absurd rfl h
  · have hone : Spans [c.size] c.size c.size := by
      refine ⟨List.mem_singleton.mpr rfl, List.mem_singleton.mpr rfl, fun n hn => ?_⟩
      rw [List.mem_singleton.mp hn]
      exact ⟨Nat.le_refl _, Nat.le_refl _⟩
    exact lengthsWith_some hone rest

/-- The code of an alternation that has lengths is that of some choices, with these bounds of
their lengths. -/
theorem choiceLengths_spec (h : choiceLengths .none body = .ok (some (least, most))) :
    ∃ choices, body = Alternative.codeOf choices ∧ choices ≠ [] ∧
      (∀ c ∈ choices, c.toInstr.IsEncodable) ∧ Spans (choices.map (·.size)) least most := by
  obtain ⟨choices, rfl, hchoices⟩ := exists_choices h
  rw [choiceLengths_codeOf hchoices, Except.ok.injEq] at h
  by_cases hne : choices = []
  · subst hne
    cases h
  · obtain ⟨least', most', hlengths, hspans⟩ := lengthsWith_none hne
    rw [h] at hlengths
    cases hlengths
    exact ⟨choices, rfl, hne, hchoices, hspans⟩

/-! ## One instruction -/

/-- The bounds of the cursor and the reach after an instruction other than `accept`. -/
def track (lo hi : Int) (reach : Reach) :
    Instr → Except AutomatonError (Int × Int × Reach)
  | .accept | .atStart => .ok (lo, hi, reach)
  | .literal bs | .masked bs _ => .ok (lo + bs.size, hi + bs.size, reach.read lo hi bs.size)
  | .within _ | .outside _ => .ok (lo + 1, hi + 1, reach.read lo hi 1)
  | .seek delta => .ok (lo + delta, hi + delta, reach)
  | .atEnd => .ok (lo, hi, reach.read lo hi 1)
  | .alternation body =>
    match choiceLengths .none body with
    | .error e => .error e
    | .ok .none => .error .emptyAlternation
    | .ok (some (least, most)) => .ok (lo + least, hi + most, reach.read lo hi most)

variable {lo hi lo' hi' : Int} {reach reach' : Reach} {code rest : Code} {i : Instr}

theorem track_alternation (hne : choices ≠ []) (h : ∀ c ∈ choices, c.toInstr.IsEncodable)
    (lo hi : Int) (reach : Reach) :
    ∃ least most : Nat, track lo hi reach (Directive.alternation choices).toInstr =
        .ok (lo + least, hi + most, reach.read lo hi most) ∧
      Spans (choices.map (·.size)) least most := by
  obtain ⟨least, most, hlengths, hspans⟩ := lengthsWith_none hne
  refine ⟨least, most, ?_, hspans⟩
  simp only [Directive.toInstr, track, choiceLengths_codeOf h, hlengths]

theorem analyzeFrom_of_decode (h : Instr.decode code = .ok (i, rest)) (hi' : i ≠ .accept) :
    analyzeFrom lo hi reach code = (do
      let (lo', hi', reach') ← track lo hi reach i
      if lo' < -limit ∨ limit < hi' then .error .cursorOutOfRange
      else analyzeFrom lo' hi' reach' rest) := by
  rcases code with _ | ⟨opcode, operands⟩
  · cases h
  · rw [analyzeFrom]
    split
    · next e he =>
      rw [he] at h
      cases h
    · next i' rest' he =>
      rw [he] at h
      cases h
      cases i with
      | accept => exact absurd rfl hi'
      | alternation body =>
        simp only [track]
        rcases choiceLengths .none body with e | _ | ⟨least, most⟩ <;> rfl
      | _ => rfl

/-- The analysis ends with the first `accept`, which has to be the last instruction. -/
theorem analyzeFrom_of_accept (h : Instr.decode code = .ok (.accept, rest)) :
    analyzeFrom lo hi reach code =
      if !rest.isEmpty then .error .codeAfterAccept
      else if reach.isAllowed then .ok reach else .error (.reachTooLarge reach) := by
  rcases code with _ | ⟨opcode, operands⟩
  · cases h
  · rw [analyzeFrom]
    split
    · next e he =>
      rw [he] at h
      cases h
    · next i' rest' he =>
      rw [he] at h
      cases h
      rfl

end Reach

/-! ## Directives -/

namespace Directive

/-- A directive that can stand before `accept`: the cursor moves by a number that fits in two
bytes, and an alternation has choices. -/
structure IsStep (d : Directive) : Prop where
  short : d.IsShort
  ne_accept : d ≠ accept
  ne_alternation : d ≠ alternation []

end Directive

namespace Reach

open Directive

variable {ds : List Directive} {lo hi : Int} {reach found : Reach} {code : Code}

/-- The code of some directives and of `accept`. -/
def acceptedCode (ds : List Directive) : Code :=
  (ds.map toInstr).flatMap Instr.encode ++ Instr.accept.encode

theorem acceptedCode_cons (d : Directive) (ds : List Directive) :
    acceptedCode (d :: ds) = d.toInstr.encode ++ acceptedCode ds := by
  unfold acceptedCode
  rw [List.map_cons, List.flatMap_cons, List.append_assoc]

/-- An instruction that passes the analysis is that of a directive. -/
theorem exists_directive {i : Instr} {t : Int × Int × Reach} (hfits : i.IsEncodable)
    (hne : i ≠ .accept) (h : track lo hi reach i = .ok t) :
    ∃ d : Directive, i = d.toInstr ∧ d.IsStep ∧ d.IsWritable := by
  cases i with
  | accept => exact absurd rfl hne
  | literal bs => exact ⟨.literal bs, rfl, ⟨trivial, nofun, nofun⟩, hfits⟩
  | masked bs mask => exact ⟨.masked bs mask, rfl, ⟨trivial, nofun, nofun⟩, hfits⟩
  | within c => exact ⟨.within c, rfl, ⟨trivial, nofun, nofun⟩, trivial⟩
  | outside c => exact ⟨.outside c, rfl, ⟨trivial, nofun, nofun⟩, trivial⟩
  | seek delta => exact ⟨.seek delta, rfl, ⟨hfits, nofun, nofun⟩, trivial⟩
  | atStart => exact ⟨.atStart, rfl, ⟨trivial, nofun, nofun⟩, trivial⟩
  | atEnd => exact ⟨.atEnd, rfl, ⟨trivial, nofun, nofun⟩, trivial⟩
  | alternation body =>
    unfold track at h
    rcases hlengths : choiceLengths .none body with e | _ | ⟨least, most⟩
    · simp [hlengths] at h
    · simp [hlengths] at h
    · obtain ⟨choices, rfl, hne, hchoices, -⟩ := choiceLengths_spec hlengths
      refine ⟨.alternation choices, rfl, ⟨trivial, nofun, ?_⟩, hchoices, hfits⟩
      exact fun h => hne (Directive.alternation.inj h)

/-- Only the code of directives with `accept` at the end passes the analysis. -/
theorem exists_directives (h : analyzeFrom lo hi reach code = .ok found) :
    ∃ ds, code = acceptedCode ds ∧ ∀ d ∈ ds, d.IsStep ∧ d.IsWritable := by
  induction hn : code.length using Nat.strongRecOn generalizing code lo hi reach with
  | ind n ih =>
    rcases hd : Instr.decode code with e | ⟨i, rest⟩
    · rcases code with _ | ⟨opcode, operands⟩
      · rw [analyzeFrom] at h
        cases h
      · rw [analyzeFrom] at h
        split at h
        · cases h
        · next he =>
          rw [hd] at he
          cases he
    · obtain ⟨hfits, hcode⟩ := Instr.encode_of_decode hd
      by_cases haccept : i = .accept
      · subst haccept
        rw [analyzeFrom_of_accept hd] at h
        split at h
        · cases h
        · next hrest =>
          have hnil : rest = [] := by simpa using hrest
          subst hnil
          exact ⟨[], hcode, fun d hd => absurd hd List.not_mem_nil⟩
      · rw [analyzeFrom_of_decode hd haccept] at h
        obtain ⟨⟨lo', hi', reach'⟩, htrack, h⟩ := Checked.bind_eq_ok_iff.mp h
        simp only at h
        split at h
        · cases h
        · obtain ⟨ds, rfl, hds⟩ := ih rest.length (hn ▸ Instr.decode_length hd) h rfl
          obtain ⟨d, rfl, hstep⟩ := exists_directive hfits haccept htrack
          exact ⟨d :: ds, hcode.trans (acceptedCode_cons d ds).symm,
            List.forall_mem_cons.mpr ⟨hstep, hds⟩⟩

theorem assemble_eq_ok_iff :
    Assembler.assemble (ds ++ [.accept]) = .ok code ↔
      (∀ d ∈ ds, d.IsWritable) ∧ code = acceptedCode ds := by
  rw [Assembler.assemble_eq_ok_iff, List.forall_mem_append]
  unfold acceptedCode
  simp [IsWritable, toInstr]

/-- The directives are read back from their code. -/
theorem ofCode_acceptedCode (hds : ∀ d ∈ ds, d.IsStep ∧ d.IsWritable) :
    Directive.ofCode (acceptedCode ds) = ds ++ [.accept] := by
  have hassemble := assemble_eq_ok_iff.mpr ⟨fun d hd => (hds d hd).2, rfl⟩
  refine Assembler.ofCode_assemble (fun d hd => ?_) hassemble
  rcases List.mem_append.mp hd with hd | hd
  · exact (hds d hd).1.short
  · rw [List.mem_singleton.mp hd]
    trivial

theorem analyzeFrom_acceptedCode_nil :
    analyzeFrom lo hi reach (acceptedCode []) =
      if reach.isAllowed then .ok reach else .error (.reachTooLarge reach) := by
  have hd : Instr.decode (acceptedCode []) = .ok (.accept, []) := rfl
  rw [analyzeFrom_of_accept hd, if_neg (by simp)]

theorem analyzeFrom_acceptedCode_cons {d : Directive} (hd : d.IsStep) (hw : d.IsWritable) :
    analyzeFrom lo hi reach (acceptedCode (d :: ds)) = (do
      let (lo', hi', reach') ← track lo hi reach d.toInstr
      if lo' < -limit ∨ limit < hi' then .error .cursorOutOfRange
      else analyzeFrom lo' hi' reach' (acceptedCode ds)) := by
  have hne : d.toInstr ≠ .accept := by
    intro h
    cases d with
    | accept => exact hd.ne_accept rfl
    | _ => cases h
  rw [acceptedCode_cons]
  exact analyzeFrom_of_decode (Instr.decode_encode (encodable_toInstr hw hd.short) _) hne

/-- A directive after which the cursor is still in range. -/
theorem analyzeFrom_of_track {d : Directive} {lo' hi' : Int} {reach' : Reach} (hd : d.IsStep)
    (hw : d.IsWritable) (htrack : track lo hi reach d.toInstr = .ok (lo', hi', reach'))
    (hrange : ¬(lo' < -limit ∨ limit < hi')) :
    analyzeFrom lo hi reach (acceptedCode (d :: ds)) =
      analyzeFrom lo' hi' reach' (acceptedCode ds) := by
  rw [analyzeFrom_acceptedCode_cons hd hw, htrack]
  exact if_neg hrange

end Reach

end StreamMatch
