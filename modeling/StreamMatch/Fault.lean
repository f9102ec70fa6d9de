-- Failed checks. An operation that has a condition on its arguments answers
-- with a fault when the condition does not hold, and arithmetic on offsets is
-- done on numbers of 64 bits, where a result that does not fit is a fault too.

namespace StreamMatch

/-- The check that failed. -/
inductive Fault where
  /-- A position outside the bytes or the table it refers to. -/
  | outOfBounds
  /-- A number that does not fit in its width. -/
  | overflow
  /-- A condition that the caller had to establish. -/
  | brokenCondition
deriving DecidableEq, Repr

/-- A result, or the check that failed while computing it. -/
abbrev Checked := Except Fault

namespace Checked

/-- Goes on only if the condition holds. -/
def require (holds : Bool) (fault : Fault) : Checked Unit :=
  if holds then .ok () else .error fault

/-- The value of an option that must not be empty. -/
def some? {α : Type} (value : Option α) (fault : Fault) : Checked α :=
  match value with
  | some a => .ok a
  | none => .error fault

theorem require_true (fault : Fault) : require true fault = .ok () := rfl

/-- A computation succeeds if its first step does and the others do. -/
theorem bind_eq_ok_iff {ε α β : Type} {x : Except ε α} {f : α → Except ε β} {b : β} :
    (x >>= f) = .ok b ↔ ∃ a, x = .ok a ∧ f a = .ok b := by
  cases x with
  | error e => simp [bind, Except.bind]
  | ok a => simp [bind, Except.bind]

end Checked

/-! ## Unsigned numbers of 64 bits -/

namespace Word

/-- How many values a number of 64 bits has. -/
def bound : Nat := 0x10000000000000000

/-- The largest number of 64 bits. -/
def largest : Nat := bound - 1

/-- The sum, if it fits in 64 bits. -/
def add (a b : Nat) : Checked Nat :=
  if a + b < bound then .ok (a + b) else .error .overflow

/-- The difference, if it is not negative. -/
def sub (a b : Nat) : Checked Nat :=
  if b ≤ a then .ok (a - b) else .error .overflow

/-- The sum, or the largest number when the sum does not fit. -/
def addSat (a b : Nat) : Nat := min (a + b) largest

theorem add_eq_ok {a b : Nat} (h : a + b < bound) : add a b = .ok (a + b) := by
  simp [add, h]

theorem sub_eq_ok {a b : Nat} (h : b ≤ a) : sub a b = .ok (a - b) := by
  simp [sub, h]

end Word

/-! ## Signed numbers of 64 bits -/

namespace Signed

/-- The largest signed number of 64 bits. -/
def largest : Int := 0x7FFFFFFFFFFFFFFF

/-- The smallest signed number of 64 bits. -/
def smallest : Int := -0x8000000000000000

/-- The signed number with the same 64 bits as an unsigned one. -/
def ofWord (n : Nat) : Int := if n < 0x8000000000000000 then n else (n : Int).bmod Word.bound

/-- The unsigned number with the same 64 bits as a signed one. -/
def toWord (i : Int) : Nat := (i % (Word.bound : Int)).toNat

/-- The number itself, if it fits in 64 bits with a sign. -/
def fit (i : Int) : Checked Int :=
  if smallest ≤ i ∧ i ≤ largest then .ok i else .error .overflow

/-- The sum, if it fits. -/
def add (a b : Int) : Checked Int := fit (a + b)

/-- The difference, if it fits. -/
def sub (a b : Int) : Checked Int := fit (a - b)

/-- The sum, or the nearest limit when the sum does not fit. -/
def addSat (a b : Int) : Int := max smallest (min largest (a + b))

theorem fit_eq_ok {i : Int} (h : smallest ≤ i ∧ i ≤ largest) : fit i = .ok i := by
  simp [fit, h]

theorem ofWord_eq {n : Nat} (h : n < 0x8000000000000000) : ofWord n = n := by
  rw [ofWord, if_pos h]

theorem ofWord_eq_bmod (n : Nat) : ofWord n = (n : Int).bmod Word.bound := by
  unfold ofWord Word.bound
  split
  · rw [Int.bmod_def]
    omega
  · rfl

theorem toWord_eq {n : Nat} (h : n < Word.bound) : toWord n = n := by
  unfold Word.bound at h
  unfold toWord Word.bound
  omega

end Signed

end StreamMatch
