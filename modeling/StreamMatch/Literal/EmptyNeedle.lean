-- How often an empty needle is found at each position. A search reads the bytes
-- one at a time and knows the longest start of a needle that the bytes read so
-- far end with, and from it all the shorter ones. What is found belongs to those
-- starts, and an empty needle, which occurs at every position, can belong to
-- several of them.
import StreamMatch.Literal.Table

namespace StreamMatch.Needle

/-- A start of some needles. -/
structure Start where
  size : Nat
  /-- The last byte. -/
  last : UInt8
  /-- The position of the longest shorter start that this one ends with. -/
  shorter : Nat
  /-- How the start without its last byte compares with the start without its
  first byte. -/
  slope : Ordering
  /-- How often an empty needle is found in addition to its plain occurrence,
  where this is the longest start that the bytes end with. -/
  extraFinds : Nat
  /-- The positions of the starts that have one more byte. -/
  longer : List (UInt8 × Nat)
deriving DecidableEq, Repr

/-- The start of no bytes. -/
def Start.empty : Start := ⟨0, 0, 0, .eq, 0, []⟩

/-- The starts of some needles, shorter ones first. The first one has no bytes. -/
abbrev Starts := Array Start

namespace Starts

variable (starts : Starts)

/-- The start at a position. -/
def start (i : Nat) : Start := starts[i]?.getD .empty

/-- The position of the longest start that the start at `i` followed by a byte
ends with, among those made from it and from the next `tries` shorter ones. -/
def stepWithin (b : UInt8) : (tries i : Nat) → Nat
  | 0, i => ((starts.start i).longer.lookup b).getD 0
  | tries + 1, i =>
    match (starts.start i).longer.lookup b with
    | some j => j
    | none => stepWithin b tries (starts.start i).shorter

/-- The position of the longest start that the start at `i` followed by a byte
ends with. A start has no more shorter ones than it has bytes. -/
def step (i : Nat) (b : UInt8) : Nat := starts.stepWithin b (starts.start i).size i

/-- The start at `i` with one more byte.

Starts are completed one after the other, shorter ones first and those of the
same size in the order of their bytes. A start is made while the start without
its last byte is being completed, and takes over what belongs to the next
shorter start that it ends with. When a start of two bytes or more is completed
it gets the empty needle, which is found once more if the shorter start had it
already. That start did not if it is to be completed at the same time or later:
it has just one byte less, and is not before the start without its last byte. -/
def grown (i : Nat) (b : UInt8) : Start :=
  let s := starts.start i
  if s.size = 0 then ⟨1, b, 0, .eq, 0, []⟩
  else
    let shorter := starts.step s.shorter b
    let below := starts.start shorter
    let slope := s.slope.then (compare s.last b)
    let isFirstFind := below.size == s.size && slope.isLE
    ⟨s.size + 1, b, shorter, slope, below.extraFinds + if isFirstFind then 0 else 1, []⟩

/-- Adds the start at `i` with one more byte, unless it is there already, and
gives its position. -/
def insert (i : Nat) (b : UInt8) : Starts × Nat :=
  match (starts.start i).longer.lookup b with
  | some j => (starts, j)
  | none =>
    let j := starts.size
    ((starts.push (starts.grown i b)).modify i fun s => { s with longer := (b, j) :: s.longer }, j)

/-- Adds one more byte of each text. A text is given by the position of what was
added of it and by the rest of it. -/
def insertEach (starts : Starts) : List (Nat × List UInt8) → Starts × List (Nat × List UInt8)
  | [] => (starts, [])
  | (_, []) :: texts => insertEach starts texts
  | (i, b :: rest) :: texts =>
    let (starts, j) := starts.insert i b
    let (starts, texts) := insertEach starts texts
    (starts, (j, rest) :: texts)

/-- Adds the next `n` bytes of each text. -/
def insertAll (starts : Starts) (texts : List (Nat × List UInt8)) : (n : Nat) → Starts
  | 0 => starts
  | n + 1 =>
    let (starts, texts) := insertEach starts texts
    insertAll starts texts n

/-- The starts of some texts. -/
def ofTexts (texts : List (List UInt8)) : Starts :=
  insertAll #[.empty] (texts.map fun text => (0, text)) ((texts.map List.length).foldl max 0)

end Starts

/-- How often an empty needle is found at each position of some bytes, if there
is an empty needle. -/
def emptyTimes (needles : List Needle) (bytes : Bytes) : Array Nat :=
  if needles.any (·.bytes.isEmpty) then
    let starts := Starts.ofTexts (needles.map (·.bytes.toList))
    let read := fun (i, times) b =>
      let i := starts.step i b
      (i, times.push (1 + (starts.start i).extraFinds))
    (bytes.toList.foldl read ((0, #[1]) : Nat × Array Nat)).2
  else #[]

end StreamMatch.Needle
