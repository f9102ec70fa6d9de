-- Keys are linearly ordered, and each one has a next one with the same end.
import Mathlib.Order.Defs.LinearOrder
import StreamMatch.Key

namespace StreamMatch.Key

instance : LinearOrder Key where
  le_refl a := by rw [le_def]; omega
  le_trans a b c h h' := by rw [le_def] at *; omega
  lt_iff_le_not_ge a b := by rw [le_def, le_def, lt_def]; omega
  le_antisymm a b h h' := by rw [le_def] at *; exact ext (by omega) (by omega)
  le_total a b := by rw [le_def, le_def]; omega
  toDecidableLE := inferInstance

/-- The first key after a key. -/
def next (k : Key) : Key := ⟨k.endsAt, k.rank + 1⟩

theorem lt_next_iff {a k : Key} : a < k.next ↔ a ≤ k := by
  simp only [lt_def, le_def, next]
  omega

theorem lt_next (k : Key) : k < k.next := lt_next_iff.mpr (le_refl k)

theorem next_le_iff {k a : Key} : k.next ≤ a ↔ k < a := by
  simp only [le_def, lt_def, next]
  omega

/-- The keys before an offset are those that end before it. -/
theorem lt_of_endsAt_lt {a k : Key} (h : a.endsAt < k.endsAt) : a < k := Or.inl h

theorem endsAt_le {a k : Key} (h : a ≤ k) : a.endsAt ≤ k.endsAt := by
  rw [le_def] at h
  omega

end StreamMatch.Key
