-- The search for needles in some bytes. A single needle is searched for one
-- occurrence at a time, and several needles are searched for together, which
-- finds all those that end at a position before going on to the next one.
import StreamMatch.Literal.EmptyNeedle

namespace StreamMatch

/-- An occurrence of a needle. -/
structure Hit where
  endsAt : Nat
  needle : Needle
deriving DecidableEq, Repr

namespace Needle

/-! ## One needle -/

/-- The first position at which a needle occurs, among `count` positions from
`pos` on. -/
def firstWithin (needle bytes : Bytes) : (count pos : Nat) → Option Nat
  | 0, _ => none
  | count + 1, pos =>
    if needle.standsAt bytes pos then some pos else firstWithin needle bytes count (pos + 1)

/-- The first position at which a needle occurs, at `pos` or after it. -/
def firstFrom (needle bytes : Bytes) (pos : Nat) : Option Nat :=
  firstWithin needle bytes (bytes.size + 1 - pos) pos

/-- Adds the next positions at which a needle occurs, `count` of them at most, to
those that are already found. Occurrences can overlap: the search goes on one
byte after the start of the last one. -/
def searchFrom (needle bytes : Bytes) (found : Array Nat) : (count pos : Nat) → Array Nat
  | 0, _ => found
  | count + 1, pos =>
    match firstFrom needle bytes pos with
    | none => found
    | some start => searchFrom needle bytes (found.push start) count (start + 1)

/-! ## Several needles -/

/-- Returns whether the last byte of an occurrence of the needle is the one
before position `last`. -/
def endsIn (n : Needle) (bytes : Bytes) (last : Nat) : Bool :=
  decide (n.bytes.size ≤ last) && n.bytes.standsAt bytes (last - n.bytes.size)

/-- The occurrences of a needle that end at position `last`, where it does
occur. Only an empty needle is found more than once. -/
def hitsAt (emptyTimes : Array Nat) (last : Nat) (n : Needle) : List Hit :=
  if n.bytes.isEmpty then List.replicate (emptyTimes[last]?.getD 1) ⟨last, n⟩ else [⟨last, n⟩]

theorem hitsAt_of_not_isEmpty {emptyTimes : Array Nat} {last : Nat} {n : Needle}
    (h : n.bytes.isEmpty = false) : hitsAt emptyTimes last n = [⟨last, n⟩] := by
  simp [hitsAt, h]

theorem endsIn_iff {n : Needle} {bytes : Bytes} {last : Nat} :
    n.endsIn bytes last = true ↔
      n.bytes.size ≤ last ∧ n.bytes.standsAt bytes (last - n.bytes.size) = true := by
  unfold endsIn
  rw [Bool.and_eq_true, decide_eq_true_iff]

/-- The last byte of a needle that ends at a position is the byte before it. -/
theorem lastByte_of_endsIn {n : Needle} {bytes : Bytes} {last : Nat}
    (hn : n.bytes.isEmpty = false) (h : n.endsIn bytes last = true) :
    0 < last ∧ n.lastByte = bytes.byteAt (last - 1) := by
  have hsize : n.bytes.size ≠ 0 := by simpa [ByteArray.isEmpty] using hn
  rw [endsIn_iff, Bytes.standsAt_iff] at h
  obtain ⟨hlast, hle, hs⟩ := h
  refine ⟨by omega, ?_⟩
  have hb := Bytes.byteAt_slice (show n.bytes.size - 1 < n.bytes.size by omega) hle
  rw [hs] at hb
  rw [lastByte, hb]
  congr 1
  omega

end Needle

namespace NeedleIndex

/-- No needle that ends at a position is left out there. -/
theorem mem_endingAt_iff {needles : List Needle} {bytes : Bytes} {last : Nat} {n : Needle}
    (h : n.endsIn bytes last = true) :
    n ∈ (ofNeedles needles).endingAt bytes last ↔ n ∈ needles := by
  rw [endingAt, List.mem_append, empties_ofNeedles, ending_ofNeedles]
  by_cases hn : n.bytes.isEmpty
  · split <;> simp [hn]
  · have hn : n.bytes.isEmpty = false := by simpa using hn
    obtain ⟨hpos, hbyte⟩ := Needle.lastByte_of_endsIn hn h
    rw [if_neg (by omega)]
    simp [hn, hbyte]

end NeedleIndex

namespace Hit

/-! ## All needles -/

/-- The occurrences of a needle that end at position `first` or after it. No two
of them have the same start, so there are not more than positions. -/
def hitsOfOne (n : Needle) (bytes : Bytes) (first : Nat) : List Hit :=
  (Needle.searchFrom n.bytes bytes #[] (bytes.size + 1) (first - n.bytes.size)).toList.map
    fun start => ⟨start + n.bytes.size, n⟩

/-- The occurrences of several needles that end at position `first` or after it,
for each end those of the needles that the index has for it. -/
def hitsOfSeveral (needles : List Needle) (index : NeedleIndex) (bytes : Bytes) (first : Nat) :
    List Hit :=
  let emptyTimes := Needle.emptyTimes needles bytes
  (List.range' first (bytes.size + 1 - first)).flatMap fun last =>
    ((index.endingAt bytes last).filter (·.endsIn bytes last)).flatMap
      (Needle.hitsAt emptyTimes last)

/-- The occurrences of the needles of a table that end at position `first` or
after it, in the order of their ends. -/
def hitsFrom (table : LiteralTable) (bytes : Bytes) (first : Nat) : List Hit :=
  match table.needles with
  | [] => []
  | [n] => hitsOfOne n bytes first
  | needles => hitsOfSeveral needles table.index bytes first

end Hit

end StreamMatch
