-- Identifiers of the parts of a program: numbers of 32 bits, one kind of
-- identifier for each kind of part, so that they can not be mixed up.

namespace StreamMatch

/-- The parts of a program that have an identifier. -/
inductive PartKind where
  | pattern
  | literal
  | repetition
  | automaton
deriving DecidableEq, Repr

/-- The name of the identifiers of a kind, as it is printed. -/
def PartKind.idName : PartKind → String
  | .pattern => "PatternId"
  | .literal => "LiteralId"
  | .repetition => "RepeatId"
  | .automaton => "AutomatonId"

/-- Identifies a part of the given kind within its program. -/
structure Id (kind : PartKind) where
  index : UInt32
deriving DecidableEq, Repr

/-- Identifies a pattern. -/
abbrev PatternId := Id .pattern

/-- Identifies a literal. -/
abbrev LiteralId := Id .literal

/-- Identifies a repeat. -/
abbrev RepeatId := Id .repetition

/-- Identifies an automaton. -/
abbrev AutomatonId := Id .automaton

namespace Id

variable {kind : PartKind}

/-- The identifier of the part at a position. Only the 32 low bits of the
position are kept. -/
def ofNat (n : Nat) : Id kind := ⟨UInt32.ofNat n⟩

/-- The identifier with a number, if the number has at most 32 bits. -/
def ofNat? (n : Nat) : Option (Id kind) := if n < 0x100000000 then some (ofNat n) else none

/-- The position of the part that is identified. -/
def toNat (id : Id kind) : Nat := id.index.toNat

/-- The text of an identifier, such as `PatternId(0)`. -/
def text (id : Id kind) : String := kind.idName ++ "(" ++ toString id.toNat ++ ")"

theorem toNat_ofNat (n : Nat) : (ofNat n : Id kind).toNat = n % 0x100000000 := UInt32.toNat_ofNat'

theorem toNat_ofNat_of_lt {n : Nat} (h : n < 0x100000000) : (ofNat n : Id kind).toNat = n := by
  rw [toNat_ofNat, Nat.mod_eq_of_lt h]

theorem ofNat_toNat (id : Id kind) : ofNat id.toNat = id := by
  cases id; simp [ofNat, toNat]

end Id

end StreamMatch
