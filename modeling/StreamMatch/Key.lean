-- The order in which matches are processed and reported: by the offset where
-- they end, and matches with the same end by rank.

namespace StreamMatch

/-- The place of a match in the order of matches. -/
structure Key where
  /-- The offset that follows the last byte of the match. -/
  endsAt : Nat
  /-- The rank among the matches with the same end, the lowest one first. -/
  rank : Nat
deriving DecidableEq, Repr

namespace Key

instance : LT Key where
  lt a b := a.endsAt < b.endsAt ∨ a.endsAt = b.endsAt ∧ a.rank < b.rank

instance : LE Key where
  le a b := a.endsAt < b.endsAt ∨ a.endsAt = b.endsAt ∧ a.rank ≤ b.rank

instance (a b : Key) : Decidable (a < b) :=
  inferInstanceAs (Decidable (a.endsAt < b.endsAt ∨ a.endsAt = b.endsAt ∧ a.rank < b.rank))

instance (a b : Key) : Decidable (a ≤ b) :=
  inferInstanceAs (Decidable (a.endsAt < b.endsAt ∨ a.endsAt = b.endsAt ∧ a.rank ≤ b.rank))

/-- The key before all others. -/
def first : Key := ⟨0, 0⟩

/-- A key that is not before any other. -/
def last : Key := ⟨0xFFFFFFFFFFFFFFFF, 0xFFFFFFFF⟩

theorem lt_def {a b : Key} :
    a < b ↔ a.endsAt < b.endsAt ∨ a.endsAt = b.endsAt ∧ a.rank < b.rank := Iff.rfl

theorem le_def {a b : Key} :
    a ≤ b ↔ a.endsAt < b.endsAt ∨ a.endsAt = b.endsAt ∧ a.rank ≤ b.rank := Iff.rfl

theorem ext {a b : Key} (he : a.endsAt = b.endsAt) (hr : a.rank = b.rank) : a = b := by
  cases a; cases b; simp_all

theorem not_lt {a b : Key} : ¬a < b ↔ b ≤ a := by
  rw [lt_def, le_def]; omega

theorem lt_irrefl (a : Key) : ¬a < a := by
  rw [lt_def]; omega

theorem lt_trans {a b c : Key} (h : a < b) (h' : b < c) : a < c := by
  rw [lt_def] at *; omega

theorem first_le (a : Key) : first ≤ a := by
  rw [le_def, first]; simp; omega

end Key

end StreamMatch
