-- Drafts of programs. Patterns and automata are added to a draft one by one,
-- each of them is checked when it is added, and the program is built at last.
import StreamMatch.Program.Checksum

namespace StreamMatch

/-- A literal that is added to a draft. -/
structure LiteralSpec where
  bytes : Bytes
  anchored : Bool := false
  automaton : Option AutomatonId := none
deriving DecidableEq, Repr

/-- A pattern that is added to a draft. -/
inductive PatternSpec where
  | literals (specs : List LiteralSpec)
  | repetition (allowed : ByteClass) (least : Nat) (most : Bound)
deriving DecidableEq, Repr

/-- What can be asked from a draft. -/
inductive Addition where
  | literals (specs : List LiteralSpec)
  | repetition (allowed : ByteClass) (least : Nat) (most : Bound)
  | automaton (code : Code)
  /-- Replaces the flags of a pattern. -/
  | flags (pattern : PatternId) (flags : PatternFlags)
deriving DecidableEq, Repr

/-- What an addition gives. -/
inductive Added where
  | pattern (id : PatternId)
  | automaton (id : AutomatonId)
  | flags
deriving DecidableEq, Repr

/-- A program that is not built yet. -/
structure Draft where
  settings : Settings := {}
  header : Header := .current
  patterns : Array (PatternSpec × PatternFlags) := #[]
  automata : Array Automaton := #[]
deriving DecidableEq, Repr

namespace LiteralSpec

/-- The length of the longest literal that can be added. -/
def maxLength : Nat := 4096

/-- Checks a literal of a pattern, where only the first `automata` automata are
known. -/
def check (automata : Nat) (pattern : PatternId) (spec : LiteralSpec) : Except BuildError Unit :=
  if spec.bytes.size = 0 then .error (.emptyLiteral pattern)
  else if maxLength < spec.bytes.size then
    .error (.literalTooLong pattern spec.bytes.size maxLength)
  else match spec.automaton with
    | some id => if automata ≤ id.toNat then .error (.unknownAutomaton id) else .ok ()
    | none => .ok ()

end LiteralSpec

namespace Draft

/-! ## Additions -/

/-- Adds a pattern with the given literals, which has to have at least one. -/
def addLiterals (d : Draft) (specs : List LiteralSpec) : Except BuildError (Draft × PatternId) := do
  let id := .ofNat d.patterns.size
  if specs.isEmpty then throw (.noLiterals id)
  specs.forM (LiteralSpec.check d.automata.size id)
  return ({ d with patterns := d.patterns.push (.literals specs, {}) }, id)

/-- Adds a pattern with a repeat. The class can not be empty, and some number of
repetitions above zero must be within the bounds. -/
def addRepeat (d : Draft) (allowed : ByteClass) (least : Nat) (most : Bound) :
    Except BuildError (Draft × PatternId) := do
  let id := .ofNat d.patterns.size
  if allowed.isEmpty then throw (.emptyClass id)
  if most.value? = some 0 ∨ !most.admits least then throw (.repeatBounds id least most)
  return ({ d with patterns := d.patterns.push (.repetition allowed least most, {}) }, id)

/-- Adds an automaton, whose code must be accepted. -/
def addAutomaton (d : Draft) (code : Code) : Except BuildError (Draft × AutomatonId) := do
  let id := .ofNat d.automata.size
  let automaton ← (Automaton.ofCode code).mapError (.automaton id)
  return ({ d with automata := d.automata.push automaton }, id)

/-- Replaces the flags of a pattern. -/
def setFlags (d : Draft) (pattern : PatternId) (flags : PatternFlags) : Except BuildError Draft :=
  if pattern.toNat < d.patterns.size then
    .ok { d with patterns := d.patterns.modify pattern.toNat fun p => (p.1, flags) }
  else .error (.unknownPattern pattern)

/-- Performs an addition. -/
def add (d : Draft) : Addition → Except BuildError (Draft × Added)
  | .literals specs => do
    let (d, id) ← d.addLiterals specs
    return (d, .pattern id)
  | .repetition allowed least most => do
    let (d, id) ← d.addRepeat allowed least most
    return (d, .pattern id)
  | .automaton code => do
    let (d, id) ← d.addAutomaton code
    return (d, .automaton id)
  | .flags pattern flags => do
    return (← d.setFlags pattern flags, .flags)

/-- Performs additions in order. One that fails changes nothing. -/
def addEach (d : Draft) : List Addition → Draft × List (Except BuildError Added)
  | [] => (d, [])
  | a :: rest =>
    match d.add a with
    | .ok (d, added) =>
      let (d, results) := d.addEach rest
      (d, .ok added :: results)
    | .error e =>
      let (d, results) := d.addEach rest
      (d, .error e :: results)

/-- Performs additions in order, up to the first one that fails. -/
def addAll (d : Draft) : List Addition → Except BuildError Draft
  | [] => .ok d
  | a :: rest => do
    let (d, _) ← d.add a
    d.addAll rest

/-! ## Building -/

/-- A pattern with its identifier, and the one of its repeat if it is a repeat. -/
structure Numbered where
  id : PatternId
  repeatId : RepeatId
  /-- The position of its first literal among all the literals. -/
  first : Nat
  spec : PatternSpec
  flags : PatternFlags

/-- Numbers patterns from `i` on, repeats from `r` on, and their literals from
`first` on. A repeat has a literal for each byte of its class. -/
def number (i r first : Nat) : List (PatternSpec × PatternFlags) → List Numbered
  | [] => []
  | (spec, flags) :: rest =>
    let (repeats, literals) := match spec with
      | .literals specs => (0, specs.length)
      | .repetition allowed _ _ => (1, allowed.size)
    ⟨.ofNat i, .ofNat r, first, spec, flags⟩ :: number (i + 1) (r + repeats) (first + literals) rest

namespace Numbered

/-- The pattern of the program. -/
def pattern (n : Numbered) : Pattern :=
  match n.spec with
  | .literals _ => ⟨.literals, n.flags⟩
  | .repetition .. => ⟨.repetition n.repeatId, n.flags⟩

/-- The literals of a pattern. Those of a repeat are the bytes of its class. -/
def literals (n : Numbered) : List Literal :=
  match n.spec with
  | .literals specs => specs.map fun s => ⟨s.bytes, .pattern n.id, s.anchored, s.automaton⟩
  | .repetition allowed _ _ =>
    allowed.members.map fun b => ⟨.ofList [b], .repetition n.repeatId, false, none⟩

end Numbered

/-- The ranks of bytes that are literals, the first of which has position `i`. -/
def ranksFrom (table : LiteralTable) (i : Nat) (bs : List UInt8) : List (UInt8 × Nat) :=
  bs.mapIdx fun j b => (b, table.rank (.ofNat (i + j)))

/-- The repeat of a pattern, if it has one. -/
def Numbered.repeat? (settings : Settings) (table : LiteralTable) (n : Numbered) :
    Option Repeat :=
  match n.spec with
  | .literals _ => none
  | .repetition allowed least most => some
    { id := n.repeatId
      pattern := n.id
      allowed, least, most
      tracking := .select most settings
      ranks := (ranksFrom table n.first allowed.members).toArray }

/-- The reach of the automaton of a literal, and the length of the literal. -/
def reach? (automata : Array Automaton) (l : Literal) : Option (Reach × Nat) := do
  let id ← l.automaton
  let automaton ← automata[id.toNat]?
  return (automaton.reach, l.bytes.size)

/-- The patterns of a draft with their numbers. -/
def numbered (d : Draft) : List Numbered := number 0 0 0 d.patterns.toList

/-- The literals of the patterns of a draft. -/
def literals (d : Draft) : List Literal := d.numbered.flatMap Numbered.literals

/-- The table of the literals of a draft. -/
def table (d : Draft) : LiteralTable := .ofLiterals (d.literals.map Literal.bytes)

/-- The most bytes that the history can have. -/
def maxHistory : Nat := 65535

/-- Puts the parts of the program together, if the history is not too large. -/
def assemble (d : Draft) : Except BuildError Program := do
  let numbered := d.numbered
  let literals := d.literals
  let table := d.table
  let repeats := numbered.filterMap (Numbered.repeat? d.settings table)
  let reaches := literals.filterMap (reach? d.automata)
  let longest := table.longest
  let lookbehind := (reaches.map fun r => r.1.lookbehind).foldl max 0
  let lookahead := (reaches.map fun r => r.1.lookahead r.2).foldl max 0
  let historySize := max (longest + lookahead + lookbehind) 1
  if maxHistory < historySize then throw .historyTooLarge
  let parts : Parts :=
    { header := d.header
      settings := d.settings
      patterns := (numbered.map Numbered.pattern).toArray
      literals := literals.toArray
      repeats := repeats.toArray
      automata := d.automata }
  return { parts with
    table, longest, lookbehind, lookahead
    layout := .ofParts historySize numbered.length repeats
    checksum := parts.checksum }

/-- Builds the program. -/
def build (d : Draft) : Except BuildError Program := do
  d.settings.check.mapError .settings
  d.assemble

/-- Builds the program where not every set of literals can be searched for: `makes` tells
for which bytes an automaton can be made. -/
def buildWith (d : Draft) (makes : List Bytes → Bool) : Except BuildFailure Program := do
  d.settings.check.mapError fun e => .refused (.settings e)
  if !d.table.isSearchable makes then throw .literalAutomaton
  d.assemble.mapError .refused

end Draft

end StreamMatch
