-- What an automaton is told to do: its instructions one by one, with the
-- choices of an alternation apart. Code is written from directives, and it is
-- read back as directives once, before it is run for many candidates.
import StreamMatch.Automaton.Instr

namespace StreamMatch

/-- One of the choices of an alternation. -/
inductive Alternative where
  | literal (bytes : Bytes)
  | masked (bytes mask : Bytes)
deriving DecidableEq, Repr

/-- An instruction, with the choices of an alternation apart. -/
inductive Directive where
  | accept
  | literal (bytes : Bytes)
  | masked (bytes mask : Bytes)
  | within (c : ByteClass)
  | outside (c : ByteClass)
  | seek (delta : Int)
  | atStart
  | atEnd
  | alternation (choices : List Alternative)
deriving DecidableEq, Repr

namespace Alternative

/-- The choice that an item of the code of an alternation stands for. -/
def ofItem? : Except DecodeError Instr → Option Alternative
  | .ok (.literal bs) => some (.literal bs)
  | .ok (.masked bs mask) => some (.masked bs mask)
  | _ => none

/-- The choices before the first item that is not one. -/
def ofItems : List (Except DecodeError Instr) → List Alternative
  | [] => []
  | item :: rest =>
    match ofItem? item with
    | some choice => choice :: ofItems rest
    | none => []

end Alternative

namespace Directive

/-- The directive that an instruction stands for. An alternation ends where its
code has something that is not a choice. -/
def ofInstr : Instr → Directive
  | .accept => accept
  | .literal bs => literal bs
  | .masked bs mask => masked bs mask
  | .within c => within c
  | .outside c => outside c
  | .seek delta => seek delta
  | .atStart => atStart
  | .atEnd => atEnd
  | .alternation body => alternation (Alternative.ofItems (Instr.items body))

/-- The directives in a piece of code, up to the first error. -/
def ofCode (code : Code) : List Directive :=
  (Instr.items code).filterMap fun item => item.toOption.map ofInstr

end Directive

end StreamMatch
