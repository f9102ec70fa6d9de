-- Upper bounds of repeats: a number, or no bound at all. Sums never overflow,
-- a sum that is not below the largest finite bound is no bound.
import StreamMatch.Fault

namespace StreamMatch

/-- An upper bound for a number of repetitions. -/
inductive Bound where
  /-- At most `n` repetitions. -/
  | finite (n : Fin 0xFFFFFFFF)
  /-- Any number of repetitions. -/
  | infinite
deriving DecidableEq, Repr

namespace Bound

/-- The largest finite bound. -/
def largestFinite : Nat := 0xFFFFFFFE

/-- The finite bound `n`, if it is not above the largest one. -/
def ofNat? (n : Nat) : Option Bound :=
  if h : n < 0xFFFFFFFF then some (.finite ⟨n, h⟩) else none

/-- The finite bound `n`, which must not be above the largest one. -/
def ofNat (n : Nat) : Checked Bound := Checked.some? (ofNat? n) .brokenCondition

/-- The number of a finite bound. -/
def value? : Bound → Option Nat
  | finite n => some n
  | infinite => none

/-- Returns whether there is no bound. -/
def isInfinite : Bound → Bool
  | finite _ => false
  | infinite => true

/-- Returns whether `n` repetitions are within the bound. -/
def admits : Bound → Nat → Bool
  | finite limit, n => decide (n ≤ limit)
  | infinite, _ => true

/-- The sum of two bounds. It is infinite if one of them is, or if the sum is
above the largest finite bound. -/
def add : Bound → Bound → Bound
  | finite a, finite b => (ofNat? (a + b)).getD infinite
  | _, _ => infinite

instance : Add Bound := ⟨add⟩

/-- Orders bounds by how many repetitions they admit. -/
def compare : Bound → Bound → Ordering
  | finite a, finite b => Ord.compare a.val b.val
  | finite _, infinite => .lt
  | infinite, finite _ => .gt
  | infinite, infinite => .eq

/-- The text of a bound, its number or `inf`. -/
def text : Bound → String
  | finite n => toString n.val
  | infinite => "inf"

theorem admits_infinite (n : Nat) : infinite.admits n = true := rfl

theorem admits_finite (limit : Fin 0xFFFFFFFF) (n : Nat) :
    (finite limit).admits n = true ↔ n ≤ limit := by
  simp [admits]

theorem add_infinite (a : Bound) : a + infinite = infinite := by
  cases a <;> rfl

theorem infinite_add (a : Bound) : infinite + a = infinite := rfl

end Bound

end StreamMatch
