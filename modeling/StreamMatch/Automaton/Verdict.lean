-- Runs confirmation automata. An automaton sees a window of the stream. When
-- it needs a byte before the window the candidate is rejected, and when it
-- needs one after the window there is no verdict yet, unless the window ends
-- where the stream ends.
import StreamMatch.Automaton.Directive
import StreamMatch.Bytes.Load

namespace StreamMatch

/-- What an automaton says of a candidate. -/
inductive Verdict where
  /-- The candidate is a match that starts at the given offset. -/
  | confirmed (startsAt : Nat)
  | rejected
  /-- Bytes after the window are needed. -/
  | undecided
deriving DecidableEq, Repr

/-- The bytes that an automaton can see. -/
structure Window where
  bytes : Bytes
  /-- The stream offset of the first byte. -/
  base : Nat
  /-- No bytes follow the window. -/
  atEnd : Bool
  /-- The stream offset of the first byte, as a signed number. -/
  first : Int := Signed.ofWord base
  /-- The stream offset that follows the last byte, as a signed number. -/
  last : Checked Int := Signed.ofWord <$> Word.add base bytes.size
  first_eq : first = Signed.ofWord base := by rfl
  last_eq : last = Signed.ofWord <$> Word.add base bytes.size := by rfl

/-- What matching some bytes at an offset gives. -/
inductive Outcome where
  | matched
  | failed
  /-- The bytes before the end of the window match, and the rest is missing. -/
  | incomplete
deriving DecidableEq, Repr

namespace Window

variable (w : Window)

/-- What it means that a byte is missing. -/
def missing : Outcome := if w.atEnd then .failed else .incomplete

/-- Compares the last bytes of `n` bytes of the literal, from the `i`-th one on,
with those of `hay` at `pos`. The bytes past the end are zero on both sides. -/
def lastWordMatches (hay : Bytes) (pos : Nat) (literal : Bytes) (mask : Option Bytes)
    (n i : Nat) : Checked Bool := do
  let found ← Load.forward .eight hay (pos + i) pos (pos + n)
  let wanted ← Load.forward .eight literal i 0 n
  let kept ← match mask with
    | some mask => Load.forward .eight mask i 0 n
    | none => .ok Word.largest
  return found &&& kept == wanted

/-- Compares `n` bytes of the literal, under a mask if there is one, with the
bytes of `hay` at `pos`, eight bytes at a time from the `i`-th one on. -/
def wordsMatch (hay : Bytes) (pos : Nat) (literal : Bytes) (mask : Option Bytes) (n i : Nat) :
    Checked Bool := do
  if h : i + 8 ≤ n then
    Load.requireExact .eight hay (pos + i) pos (pos + n)
    Load.requireExact .eight literal i 0 n
    match mask with
    | some mask =>
      Load.requireExact .eight mask i 0 n
      if hay.word (pos + i) &&& mask.word i != literal.word i then return false
    | none =>
      if hay.word (pos + i) != literal.word i then return false
    wordsMatch hay pos literal mask n (i + 8)
  else if i < n then lastWordMatches hay pos literal mask n i
  else return true
termination_by n - i

/-- Matches a literal, under a mask if there is one, at a stream offset. When
only its first bytes are inside the window those are compared anyway, a
difference among them is final. -/
def matchAt (pos : Int) (literal : Bytes) (mask : Option Bytes) : Checked Outcome := do
  if pos < w.first then return .failed
  let start := (← Signed.sub pos w.first).toNat
  let available := min (w.bytes.size - start) literal.size
  if !(← wordsMatch w.bytes start literal mask available 0) then return .failed
  return if available < literal.size then w.missing else .matched

/-- Matches one byte at a stream offset against a condition. -/
def matchByte (pos : Int) (holds : UInt8 → Bool) : Checked Outcome := do
  if pos < w.first then return .failed
  if (← w.last) ≤ pos then return w.missing
  let b ← Checked.some? w.bytes[(← Signed.sub pos w.first).toNat]? .outOfBounds
  return if holds b then .matched else .failed

/-- Matches the end of the stream at an offset. -/
def matchEnd (pos : Int) : Checked Outcome := do
  let last ← w.last
  if pos < last then return .failed
  if !w.atEnd then return .incomplete
  return if pos = last then .matched else .failed

/-- Matches a choice of an alternation, and gives its length. -/
def matchChoice (pos : Int) : Alternative → Checked (Outcome × Nat)
  | .literal bs => do return (← w.matchAt pos bs none, bs.size)
  | .masked bs mask => do return (← w.matchAt pos bs (some mask), bs.size)

/-- Matches the first of some choices that does not fail, and gives its length. -/
def matchFirst (pos : Int) : List Alternative → Checked (Outcome × Nat)
  | [] => return (.failed, 0)
  | choice :: rest => do
    match ← w.matchChoice pos choice with
    | (.failed, _) => matchFirst pos rest
    | found => return found

/-- Matches a directive that is neither `accept` nor `seek` at the cursor, and
gives how many bytes it takes. -/
def matchDirective (cursor : Int) : Directive → Checked (Outcome × Nat)
  | .literal bs => w.matchChoice cursor (.literal bs)
  | .masked bs mask => w.matchChoice cursor (.masked bs mask)
  | .within c => do return (← w.matchByte cursor c.contains, 1)
  | .outside c => do return (← w.matchByte cursor fun b => !c.contains b, 1)
  | .atStart => return (if cursor = 0 then .matched else .failed, 0)
  | .atEnd => do return (← w.matchEnd cursor, 0)
  | .alternation choices => w.matchFirst cursor choices
  | .accept | .seek _ => return (.failed, 0)

/-- Follows directives from the given cursor. `leftmost` is the least offset of
the bytes matched so far and of the literal. Directives that come to an end
without `accept` reject the candidate. -/
def follow (cursor leftmost : Int) : List Directive → Checked Verdict
  | [] => return .rejected
  | .accept :: _ => return .confirmed (Signed.toWord leftmost)
  | .seek delta :: rest => do follow (← Signed.add cursor delta) leftmost rest
  | d :: rest => do
    match ← w.matchDirective cursor d with
    | (.failed, _) => return .rejected
    | (.incomplete, _) => return .undecided
    | (.matched, n) =>
      let leftmost := if 0 < n then min leftmost cursor else leftmost
      follow (← Signed.add cursor n) leftmost rest

/-- Follows directives for a literal that starts at the given stream offset. -/
def followFrom (directives : List Directive) (literalStart : Nat) : Checked Verdict :=
  w.follow (Signed.ofWord literalStart) (Signed.ofWord literalStart) directives

/-- Runs code for a literal that starts at the given stream offset. -/
def run (code : Code) (literalStart : Nat) : Checked Verdict :=
  w.followFrom (Directive.ofCode code) literalStart

end Window

end StreamMatch
