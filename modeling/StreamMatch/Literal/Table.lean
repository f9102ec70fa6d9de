-- The table of the literals that a program searches for. Literals with the
-- same bytes are found together, as one needle. The rank of a literal orders
-- the literals that end at the same offset: longer literals go first, and
-- those of the same length in the order of their identifiers.
import StreamMatch.Bytes
import StreamMatch.Fault
import StreamMatch.Identifier
import StreamMatch.Text.Quoted

namespace StreamMatch

/-- Some bytes to search for, and the literals that have those bytes. -/
structure Needle where
  bytes : Bytes
  literals : List LiteralId
deriving DecidableEq, Repr

/-- Needles by their last bytes, so that at each position of a text only those
that can end there have to be compared with it. -/
structure NeedleIndex where
  /-- The needles that have no bytes. -/
  empties : List Needle
  /-- The needles that end with each byte, in the order of the bytes. -/
  byLast : Array (List Needle)
deriving DecidableEq, Repr

/-- The literals to search for. -/
structure LiteralTable where
  /-- The different literals, in the order in which each one appears first. -/
  needles : List Needle
  index : NeedleIndex
  /-- The rank of each literal. -/
  ranks : Array Nat
  /-- The length of each literal. -/
  lengths : Array Nat
deriving DecidableEq, Repr

namespace Needle

/-- Adds a literal to the needle with its bytes, before the other literals of
that needle, or to a new needle after all the others. -/
def addTo (needles : List Needle) (bytes : Bytes) (id : LiteralId) : List Needle :=
  match needles with
  | [] => [⟨bytes, [id]⟩]
  | n :: rest =>
    if n.bytes = bytes then ⟨n.bytes, id :: n.literals⟩ :: rest else n :: addTo rest bytes id

/-- Adds literals to needles, the first of which has position `i`. -/
def collect (found : List Needle) (i : Nat) : List Bytes → List Needle
  | [] => found
  | bytes :: rest => collect (addTo found bytes (.ofNat i)) (i + 1) rest

/-- The needles of a list of literals. -/
def ofLiterals (literals : List Bytes) : List Needle :=
  (collect [] 0 literals).map fun n => ⟨n.bytes, n.literals.reverse⟩

/-- The last byte of a needle. -/
def lastByte (n : Needle) : UInt8 := n.bytes.byteAt (n.bytes.size - 1)

end Needle

namespace NeedleIndex

/-- Adds a needle, before those that are there. -/
def add (n : Needle) (index : NeedleIndex) : NeedleIndex :=
  let ⟨empties, byLast⟩ := index
  if n.bytes.isEmpty then ⟨n :: empties, byLast⟩
  else ⟨empties, byLast.modify n.lastByte.toNat (n :: ·)⟩

/-- The index of some needles. -/
def ofNeedles (needles : List Needle) : NeedleIndex :=
  needles.foldr add ⟨[], Array.replicate 256 []⟩

/-- The needles whose last byte is the given one. -/
def ending (index : NeedleIndex) (b : UInt8) : List Needle := index.byLast[b.toNat]?.getD []

/-- The needles that can end at a position of a text. -/
def endingAt (index : NeedleIndex) (bytes : Bytes) (last : Nat) : List Needle :=
  index.empties ++ if last = 0 then [] else index.ending (bytes.byteAt (last - 1))

theorem byLast_size_ofNeedles (needles : List Needle) : (ofNeedles needles).byLast.size = 256 := by
  induction needles with
  | nil => simp [ofNeedles]
  | cons n rest ih =>
    rw [ofNeedles, List.foldr_cons, ← ofNeedles, add]
    split <;> simp [ih]

theorem empties_ofNeedles (needles : List Needle) :
    (ofNeedles needles).empties = needles.filter (·.bytes.isEmpty) := by
  induction needles with
  | nil => rfl
  | cons n rest ih =>
    rw [ofNeedles, List.foldr_cons, ← ofNeedles, add]
    split <;> simp_all

theorem ending_ofNeedles (needles : List Needle) (b : UInt8) :
    (ofNeedles needles).ending b =
      needles.filter fun n => !n.bytes.isEmpty && n.lastByte == b := by
  have hb : b.toNat < 256 := b.toNat_lt
  induction needles with
  | nil => simp [ofNeedles, ending, hb]
  | cons n rest ih =>
    have hsize := byLast_size_ofNeedles rest
    rw [ofNeedles, List.foldr_cons, ← ofNeedles, add]
    split
    · simp_all [ending]
    · by_cases h : n.lastByte = b
      · simp_all [ending, Array.getElem_modify]
      · have hne : n.lastByte.toNat ≠ b.toNat := fun he => h (UInt8.toNat_inj.mp he)
        simp_all [ending, Array.getElem_modify]

end NeedleIndex

namespace LiteralTable

/-- The positions of the literals with the given lengths, from the best rank to
the worst one. Sorting keeps the order of literals of the same length. -/
def order (lengths : Array Nat) : List Nat :=
  (List.range lengths.size).mergeSort fun i j => decide (lengths[j]?.getD 0 ≤ lengths[i]?.getD 0)

/-- Puts consecutive ranks, from `rank` on, at the given positions. -/
def assign (ranks : Array Nat) (rank : Nat) : List Nat → Array Nat
  | [] => ranks
  | i :: rest => assign (ranks.setIfInBounds i rank) (rank + 1) rest

/-- The table of a list of literals. -/
def ofLiterals (literals : List Bytes) : LiteralTable :=
  let lengths := (literals.map ByteArray.size).toArray
  let needles := Needle.ofLiterals literals
  { needles
    index := .ofNeedles needles
    ranks := assign (Array.replicate lengths.size 0) 0 (order lengths)
    lengths }

/-- Returns whether the needles of the table can be searched for. Only several needles need
an automaton, and `makes` tells for which bytes one can be made. -/
def isSearchable (t : LiteralTable) (makes : List Bytes → Bool) : Bool :=
  match t.needles with
  | [] | [_] => true
  | needles => makes (needles.map Needle.bytes)

/-- How many literals the table has. -/
def size (t : LiteralTable) : Nat := t.ranks.size

/-- The rank of a literal, which has to be in the table. -/
def rankOf (t : LiteralTable) (id : LiteralId) : Checked Nat :=
  Checked.some? t.ranks[id.toNat]? .outOfBounds

/-- The rank of a literal, zero if it is not in the table. -/
def rank (t : LiteralTable) (id : LiteralId) : Nat := t.ranks[id.toNat]?.getD 0

theorem rankOf_eq {t : LiteralTable} {id : LiteralId} (h : id.toNat < t.size) :
    t.rankOf id = .ok (t.rank id) := by
  unfold size at h
  simp [rankOf, rank, Checked.some?, h]

/-- The length of the longest literal, zero if there are none. -/
def longest (t : LiteralTable) : Nat := t.lengths.foldl max 0

/-- The text of a list between brackets. -/
def listText {α : Type} (text : α → String) (xs : List α) : String :=
  "[" ++ ", ".intercalate (xs.map text) ++ "]"

/-- How the needles are searched for: a single needle is shown with its bytes. -/
def searchText (t : LiteralTable) : String :=
  match t.needles with
  | [] => "Empty"
  | [n] => "Single(" ++ Quoted.bytes n.bytes ++ ")"
  | needles => s!"Multi({needles.length} literals)"

/-- The text of a table, that shows all its parts. -/
def text (t : LiteralTable) : String :=
  "LiteralTable \x7b matcher: " ++ t.searchText
    ++ ", groups: " ++ listText (fun n => listText Id.text n.literals) t.needles
    ++ ", ranks: " ++ listText toString t.ranks.toList
    ++ ", lengths: " ++ listText toString t.lengths.toList ++ " \x7d"

end LiteralTable

end StreamMatch
