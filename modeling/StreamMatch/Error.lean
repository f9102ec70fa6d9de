-- What can go wrong when programs are built and used, and the text of each
-- error.
import StreamMatch.Automaton.Reach
import StreamMatch.Bound
import StreamMatch.Identifier
import StreamMatch.Settings

namespace StreamMatch

/-- Something does not fit with the program, or with this version of the
library. -/
inductive Mismatch where
  /-- The header is not the one of a program. -/
  | magic
  | version (expected found : UInt32)
  | platform (expected found : String)
  /-- A stream state has the wrong size. -/
  | stateSize (expected found : Nat)
  /-- A stream state is not one that the program can produce. -/
  | foreignState
  /-- A scratch space is too small for the program. -/
  | scratch
deriving DecidableEq, Repr

/-- Why a program, or some part of it, is refused. -/
inductive BuildError where
  | emptyLiteral (pattern : PatternId)
  | literalTooLong (pattern : PatternId) (length most : Nat)
  | noLiterals (pattern : PatternId)
  | repeatBounds (pattern : PatternId) (least : Nat) (most : Bound)
  | emptyClass (pattern : PatternId)
  | automaton (id : AutomatonId) (reason : AutomatonError)
  | unknownPattern (pattern : PatternId)
  | unknownAutomaton (id : AutomatonId)
  | settings (reason : SettingsError)
  /-- The history would not fit in the state of a stream. -/
  | historyTooLarge
deriving DecidableEq, Repr

/-- Why a program is not built: it is refused, or it has several literals and the automaton
that searches for them all can not be made. -/
inductive BuildFailure where
  | refused (reason : BuildError)
  | literalAutomaton
deriving DecidableEq, Repr

/-- The errors of the library. -/
inductive Error where
  /-- A number is too large for a finite bound. -/
  | boundOutOfRange
  /-- An allocator gave a block with a size that was not asked for. -/
  | wrongBlockSize
  | mismatch (reason : Mismatch)
  | allocation (size : Nat)
  | build (reason : BuildError)
deriving DecidableEq, Repr

/-- The text of a mismatch. -/
def Mismatch.message : Mismatch → String
  | magic => "not a compiled program"
  | version expected found => s!"program built for version {found}, expected {expected}"
  | platform expected found =>
    "program built for platform `" ++ found ++ "`, expected `" ++ expected ++ "`"
  | stateSize expected found => s!"stream state has {found} bytes, expected {expected}"
  | foreignState => "stream state doesn't belong to this program"
  | scratch => "scratch space was not allocated for this program"

/-- The text of a build error. -/
def BuildError.message : BuildError → String
  | emptyLiteral pattern => "empty literal in pattern " ++ pattern.text
  | literalTooLong pattern length most =>
    s!"literal of {length} bytes in pattern " ++ pattern.text
      ++ s!" exceeds the maximum of {most} bytes"
  | noLiterals pattern => "pattern " ++ pattern.text ++ " has no literals"
  | repeatBounds pattern least most =>
    "invalid repeat bounds \x7b" ++ toString least ++ "," ++ most.text ++ "\x7d in pattern "
      ++ pattern.text
  | emptyClass pattern => "empty byte class in pattern " ++ pattern.text
  | automaton id reason => "invalid automaton " ++ id.text ++ ": " ++ reason.message
  | unknownPattern pattern => "unknown pattern " ++ pattern.text
  | unknownAutomaton id => "unknown automaton " ++ id.text
  | settings reason => "invalid configuration: " ++ reason.message
  | historyTooLarge => "program too large: history"

/-- The text of a failure to build. -/
def BuildFailure.message : BuildFailure → String
  | refused reason => reason.message
  | literalAutomaton => "program too large: literal automaton"

/-- The finite bound `n`, or the error when `n` is too large for it. -/
def Bound.check (n : Nat) : Except Error Bound :=
  match Bound.ofNat? n with
  | some b => .ok b
  | none => .error .boundOutOfRange

/-- The text of an error. -/
def Error.message : Error → String
  | boundOutOfRange => "invalid argument: finite depth out of range"
  | wrongBlockSize => "invalid argument: allocator returned a block with the wrong size"
  | mismatch reason => reason.message
  | allocation size => s!"can not allocate {size} bytes"
  | build reason => reason.message

end StreamMatch
