-- Which bytes around a literal an automaton can look at. Automata have no
-- jumps, so this is known before running them: the cursor is tracked as an
-- interval, a single position except after choices of different lengths.
import StreamMatch.Automaton.Directive

namespace StreamMatch

/-- The offsets that an automaton reads, counted from the first byte of the
literal that triggers it. -/
structure Reach where
  /-- The first offset, zero or negative. -/
  least : Int
  /-- The offset after the last one, zero or positive. -/
  most : Int
deriving DecidableEq, Repr

/-- Why the code of an automaton is refused. -/
inductive AutomatonError where
  | undecodable (error : DecodeError)
  | codeAfterAccept
  | missingAccept
  | emptyAlternation
  | notAlternative (instr : Instr)
  | cursorOutOfRange
  | reachTooLarge (reach : Reach)
deriving DecidableEq, Repr

namespace Reach

/-- The largest distance that an automaton can read before the start, or after
the end, of its literal. -/
def limit : Int := 65535 / 4

/-- The reach of an automaton that reads nothing. -/
def none : Reach := ⟨0, 0⟩

/-- Adds a read of `n` bytes from a cursor between `lo` and `hi`. -/
def read (r : Reach) (lo hi : Int) (n : Nat) : Reach :=
  ⟨min r.least lo, max r.most (hi + n)⟩

/-- How many bytes before the literal are needed. -/
def lookbehind (r : Reach) : Nat := (-r.least).toNat

/-- How many bytes after a literal of the given length are needed. -/
def lookahead (r : Reach) (length : Nat) : Nat := (r.most - length).toNat

/-- Returns whether the reach is within the limit on both sides. -/
def isAllowed (r : Reach) : Bool := decide (-limit ≤ r.least ∧ r.most ≤ limit)

end Reach

/-- The text of the reason why the code of an automaton is refused. -/
def AutomatonError.message : AutomatonError → String
  | .undecodable error => error.text
  | .codeAfterAccept => "code after MATCH"
  | .missingAccept => "missing MATCH at the end of the code"
  | .emptyAlternation => "empty alternation"
  | .notAlternative instr => instr.text ++ " not allowed in alternation"
  | .cursorOutOfRange => "cursor out of range"
  | .reachTooLarge r =>
    s!"reach [{r.least}, {r.most}) exceeds the limit of {Reach.limit} bytes"

namespace Reach

/-- The least and the greatest length of the choices in the code of an
alternation, where `lengths` are those of the choices before. -/
def choiceLengths (lengths : Option (Nat × Nat)) (body : Code) :
    Except AutomatonError (Option (Nat × Nat)) :=
  match body with
  | [] => .ok lengths
  | opcode :: operands =>
    match _h : Instr.decode (opcode :: operands) with
    | .error e => .error (.undecodable e)
    | .ok (i, rest) =>
      match i with
      | .literal bs | .masked bs _ =>
        let n := bs.size
        choiceLengths (some (match lengths with
          | some (least, most) => (min least n, max most n)
          | .none => (n, n))) rest
      | other => .error (.notAlternative other)
termination_by body.length
decreasing_by all_goals exact Instr.decode_length _h

/-- Checks that code is made of instructions, of which the last one and no
other is `accept`, and gives its reach. The cursor is between `lo` and `hi`
before the first instruction, and `reach` is what was read until then. -/
def analyzeFrom (lo hi : Int) (reach : Reach) (code : Code) : Except AutomatonError Reach :=
  match code with
  | [] => .error .missingAccept
  | opcode :: operands =>
    match _h : Instr.decode (opcode :: operands) with
    | .error e => .error (.undecodable e)
    | .ok (i, rest) =>
      let step (lo hi : Int) (reach : Reach) : Except AutomatonError Reach :=
        if lo < -limit ∨ limit < hi then .error .cursorOutOfRange
        else analyzeFrom lo hi reach rest
      match i with
      | .accept =>
        if !rest.isEmpty then .error .codeAfterAccept
        else if reach.isAllowed then .ok reach
        else .error (.reachTooLarge reach)
      | .literal bs | .masked bs _ =>
        step (lo + bs.size) (hi + bs.size) (reach.read lo hi bs.size)
      | .within _ | .outside _ => step (lo + 1) (hi + 1) (reach.read lo hi 1)
      | .seek delta => step (lo + delta) (hi + delta) reach
      | .atStart => step lo hi reach
      -- To know whether the cursor is at the end takes a look at its byte.
      | .atEnd => step lo hi (reach.read lo hi 1)
      | .alternation body =>
        match choiceLengths .none body with
        | .error e => .error e
        | .ok .none => .error .emptyAlternation
        | .ok (some (least, most)) => step (lo + least) (hi + most) (reach.read lo hi most)
termination_by code.length
decreasing_by all_goals exact Instr.decode_length _h

/-- Checks the code of an automaton and gives its reach. -/
def analyze (code : Code) : Except AutomatonError Reach := analyzeFrom 0 0 .none code

end Reach

/-- A checked confirmation automaton. -/
structure Automaton where
  code : Code
  reach : Reach
  /-- What the code says. -/
  directives : List Directive
deriving DecidableEq, Repr

namespace Automaton

/-- The automaton with the given code, if the code is accepted. -/
def ofCode (code : Code) : Except AutomatonError Automaton := do
  return ⟨code, ← Reach.analyze code, Directive.ofCode code⟩

theorem ofCode_eq_ok_iff {code : Code} {a : Automaton} :
    ofCode code = .ok a ↔
      Reach.analyze code = .ok a.reach ∧ a.code = code ∧ a.directives = Directive.ofCode code := by
  cases h : Reach.analyze code with
  | error e => simp [ofCode, h, bind, Except.bind]
  | ok reach =>
    obtain ⟨code', reach', directives⟩ := a
    simp only [ofCode, h, bind, Except.bind, pure, Except.pure, Except.ok.injEq,
      Automaton.mk.injEq]
    constructor
    · rintro ⟨rfl, rfl, rfl⟩
      exact ⟨rfl, rfl, rfl⟩
    · rintro ⟨rfl, rfl, rfl⟩
      exact ⟨rfl, rfl, rfl⟩

end Automaton

end StreamMatch
