-- The candidates of a chunk: the occurrences of the literals that end in it,
-- and those that end before it and were not processed yet, in the order of
-- their keys. A literal can start in the history and end in the chunk. Such an
-- occurrence is found in the seam, which is the history followed by the first
-- bytes of the chunk, and the others are found in the chunk alone.
import StreamMatch.Key
import StreamMatch.Literal.Search

namespace StreamMatch

/-- An occurrence of a literal. -/
structure Candidate where
  /-- The offset that follows the last byte of the occurrence. -/
  endsAt : Nat
  literal : LiteralId
  rank : Nat
deriving DecidableEq, Repr

/-- The place of a candidate among the matches. -/
def Candidate.key (c : Candidate) : Key := ⟨c.endsAt, c.rank⟩

namespace Hit

/-- The position of the first byte of the occurrence. -/
def startsAt (h : Hit) : Nat := h.endsAt - h.needle.bytes.size

/-- Counts the end from another position. -/
def shift (start : Nat) (h : Hit) : Hit := ⟨start + h.endsAt, h.needle⟩

/-- Of occurrences in the order of their ends, some of which may be too far to
have an offset in 64 bits: the offset before which all that ends together is
found. Whether one more occurrence ends at the same offset is known only from
the next one, so the last one that has an offset is not enough. -/
def limit (hits : List Hit) : Nat :=
  match hits.span fun h => decide (h.endsAt < Word.bound) with
  | (_, []) => Word.bound
  | (near, _ :: _) =>
    match near.getLast? with
    | some h => h.endsAt
    | none => 0

/-- The candidates of an occurrence, one for each literal of its needle. -/
def candidates (table : LiteralTable) (h : Hit) : Checked (List Candidate) :=
  h.needle.literals.mapM fun id => do return ⟨h.endsAt, id, ← table.rankOf id⟩

end Hit

/-- What is searched for literals: the seam, of which the first `historySize`
bytes are before the chunk, and the chunk, which starts at the stream offset
`chunkStart`. -/
structure Searched where
  seam : Bytes
  historySize : Nat
  data : Bytes
  chunkStart : Nat

namespace Searched

/-- What is searched for literals of at most `longest` bytes, for a history and
the chunk that follows it. -/
def ofChunk (longest : Nat) (history data : Bytes) (chunkStart : Nat) : Searched :=
  ⟨history ++ data.slice 0 (longest - 1), history.size, data, chunkStart⟩

/-- The stream offset of the first byte of the seam. -/
def seamStart (s : Searched) : Nat := s.chunkStart - s.historySize

/-- The occurrences that start in the history and end at offset `first` or
after it. -/
def seamHits (s : Searched) (table : LiteralTable) (first : Nat) : List Hit :=
  ((Hit.hitsFrom table s.seam (first - s.seamStart)).filter
    fun h => decide (h.startsAt < s.historySize)).map (Hit.shift s.seamStart)

/-- The occurrences that start in the chunk and end at offset `first` or after
it. -/
def dataHits (s : Searched) (table : LiteralTable) (first : Nat) : List Hit :=
  (Hit.hitsFrom table s.data (first - s.chunkStart)).map (Hit.shift s.chunkStart)

/-- The occurrences that end together become the candidates with that end, in
the order of their ranks. -/
def ties (table : LiteralTable) (hits : List Hit) : Checked (List Candidate) := do
  let found ← hits.mapM (Hit.candidates table)
  return found.flatten.mergeSort fun a b => decide (a.rank ≤ b.rank)

/-- The candidates of the occurrences that end together, if they end before the
limit of the search. -/
def group (table : LiteralTable) (limit : Nat) (hits : List Hit) : Checked (List Candidate) :=
  if hits.all fun h => decide (h.endsAt < limit) then ties table hits else .error .overflow

/-- The candidates of a chunk, grouped by their ends, leaving out the groups
that end before the offset `first`. The seam and the chunk are searched side by
side, so a group is found if it is before the limits of both. -/
def groups (s : Searched) (table : LiteralTable) (first : Nat) :
    Checked (List (Checked (List Candidate))) := do
  Checked.require (decide (s.historySize ≤ s.chunkStart)) .overflow
  let inSeam := s.seamHits table first
  let inData := s.dataHits table first
  let hits := inSeam.merge inData fun a b => decide (a.endsAt ≤ b.endsAt)
  let limit := min (Hit.limit inSeam) (Hit.limit inData)
  return (hits.splitBy fun a b => a.endsAt == b.endsAt).map (group table limit)

/-- The candidates of a chunk that are not before the key `resume`, in the order
of their keys. -/
def candidates (s : Searched) (table : LiteralTable) (resume : Key) : Checked (List Candidate) := do
  let groups ← (← s.groups table resume.endsAt).mapM id
  return groups.flatten.filter fun c => decide (resume ≤ c.key)

end Searched

end StreamMatch
