-- Programs: a set of patterns with everything that is needed to find their
-- matches. A pattern has either literals, or a bounded repeat whose runs are
-- started by literals of one byte.
import StreamMatch.Program.Header
import StreamMatch.State.Layout

namespace StreamMatch

/-- How the matches of a pattern are reported. -/
structure PatternFlags where
  /-- Only the first match is reported. -/
  singleMatch : Bool := false
  /-- Matches are reported without the offset where they start. -/
  noStart : Bool := false
deriving DecidableEq, Repr

/-- What a pattern is made of. -/
inductive PatternKind where
  | literals
  | repetition (id : RepeatId)
deriving DecidableEq, Repr

/-- A pattern of a program. -/
structure Pattern where
  kind : PatternKind
  flags : PatternFlags
deriving DecidableEq, Repr

/-- What an occurrence of a literal stands for. -/
inductive Target where
  /-- A match of a pattern, once it is confirmed. -/
  | pattern (id : PatternId)
  /-- A byte that can start a run of a repeat. -/
  | repetition (id : RepeatId)
deriving DecidableEq, Repr

/-- A literal that is searched for. -/
structure Literal where
  bytes : Bytes
  target : Target
  /-- Only the occurrence at the start of the stream counts. -/
  anchored : Bool
  /-- The automaton that confirms the occurrences. -/
  automaton : Option AutomatonId
deriving DecidableEq, Repr

/-- What a program is made from. All the rest follows from it. -/
structure Parts where
  header : Header
  settings : Settings
  patterns : Array Pattern
  literals : Array Literal
  /-- The repeats, in the order of their identifiers. -/
  repeats : Array Repeat
  automata : Array Automaton
deriving DecidableEq, Repr

/-- A program that is ready to be used. -/
structure Program extends Parts where
  table : LiteralTable
  /-- The length of the longest literal. -/
  longest : Nat
  /-- The most bytes before a literal that an automaton needs. -/
  lookbehind : Nat
  /-- The most bytes after a literal that an automaton needs. -/
  lookahead : Nat
  layout : Layout
  checksum : UInt32
deriving DecidableEq, Repr

namespace Program

/-- Checks that the program can be used. -/
def validate (p : Program) : Except Error Unit := p.header.validate.mapError .mismatch

/-- The size of the state of a stream. -/
def streamSize (p : Program) : Nat := p.layout.size

/-- The most bytes that are remembered between the chunks of a stream. -/
def historySize (p : Program) : Nat := p.layout.historySize

/-- How many bytes of a chunk are needed to complete an occurrence that starts
before it. -/
def seamTail (p : Program) : Nat := p.longest - 1

/-- The size of the buffer where literals that start before a chunk are searched
for. -/
def seamSize (p : Program) : Nat := p.historySize + p.seamTail

/-- The size of the buffer for the bytes that an automaton looks at. -/
def windowSize (p : Program) : Nat := p.lookbehind + p.longest + p.lookahead

end Program

/-! ## Text -/

/-- The text of a pattern kind. -/
def PatternKind.text : PatternKind → String
  | literals => "Literals"
  | repetition id => "Repeat(" ++ id.text ++ ")"

/-- The text of a target. -/
def Target.text : Target → String
  | pattern id => "Pattern(" ++ id.text ++ ")"
  | repetition id => "Repeat(" ++ id.text ++ ")"

/-- The text of a literal, that shows all its parts. -/
def Literal.text (l : Literal) : String :=
  let mask := if l.anchored then "1" else "0"
  let automaton := match l.automaton with
    | some id => "Some(" ++ id.text ++ ")"
    | none => "None"
  "LiteralInfo \x7b bytes: " ++ Quoted.bytes l.bytes ++ ", target: " ++ l.target.text
    ++ ", flags: LiteralFlagSet \x7b mask: " ++ mask ++ " \x7d, automaton: " ++ automaton ++ " \x7d"

/-- The text of a program, with its header and how many parts it has. -/
def Program.text (p : Program) : String :=
  "Program \x7b header: " ++ p.header.text
    ++ s!", patterns: {p.patterns.size}, literals: {p.literals.size}"
    ++ s!", repeats: {p.repeats.size}, automata: {p.automata.size}"
    ++ s!", history_size: {p.historySize}, stream_size: {p.streamSize}"
    ++ ", checksum: " ++ Hex.word p.checksum ++ " \x7d"

end StreamMatch
