-- Writes the code of confirmation automata. The lengths of byte strings and of
-- the code of alternations must fit in two bytes, and a mask must be as long
-- as the bytes it masks.
import StreamMatch.Automaton.Directive

namespace StreamMatch

namespace Assembler

/-- The largest length that fits in two bytes. -/
def maxLength : Nat := 65535

/-- Fails if a length does not fit in two bytes. -/
def requireShort (n : Nat) : Checked Unit :=
  Checked.require (decide (n ≤ maxLength)) .brokenCondition

/-- The instruction for a literal. -/
def literal (bs : Bytes) : Checked Instr := do
  requireShort bs.size
  return .literal bs

/-- The instruction for a masked literal. -/
def masked (bs mask : Bytes) : Checked Instr := do
  Checked.require (bs.size == mask.size) .brokenCondition
  requireShort bs.size
  return .masked bs mask

/-- The instruction for a choice of an alternation. -/
def choice : Alternative → Checked Instr
  | .literal bs => literal bs
  | .masked bs mask => masked bs mask

/-- The code of the choices of an alternation. -/
def choicesCode : List Alternative → Checked Code
  | [] => return []
  | a :: rest => do
    let i ← choice a
    return i.encode ++ (← choicesCode rest)

/-- The instruction for a directive. -/
def instr : Directive → Checked Instr
  | .accept => return .accept
  | .literal bs => literal bs
  | .masked bs mask => masked bs mask
  | .within c => return .within c
  | .outside c => return .outside c
  | .seek delta => return .seek delta
  | .atStart => return .atStart
  | .atEnd => return .atEnd
  | .alternation choices => do
    let body ← choicesCode choices
    requireShort body.length
    return .alternation body

/-- The code of a list of directives. -/
def assemble : List Directive → Checked Code
  | [] => return []
  | d :: rest => do
    let i ← instr d
    return i.encode ++ (← assemble rest)

end Assembler

end StreamMatch
