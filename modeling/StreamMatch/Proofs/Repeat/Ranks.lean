-- The rank of a byte is found by halving the table of ranks, which is sorted by
-- bytes since the members of a class are listed in increasing order.
import StreamMatch.Repeat

namespace StreamMatch

namespace ByteClass

theorem pairwise_allBytes : allBytes.Pairwise (· < ·) := by
  unfold allBytes
  rw [List.pairwise_map]
  refine List.Pairwise.imp_of_mem ?_ List.pairwise_lt_range
  intro i j hi hj hij
  rw [List.mem_range] at hi hj
  rw [UInt8.lt_iff_toNat_lt, UInt8.toNat_ofNat', UInt8.toNat_ofNat']
  omega

/-- The members of a class are listed in increasing order. -/
theorem pairwise_members (c : ByteClass) : c.members.Pairwise (· < ·) :=
  pairwise_allBytes.filter c.contains

theorem members_ne_nil {c : ByteClass} (h : c.isEmpty = false) : c.members ≠ [] := by
  intro hnil
  have hempty : c = empty := by
    apply ext_contains
    intro b
    rw [contains_empty, ← Bool.not_eq_true, ← mem_members, hnil]
    exact List.not_mem_nil
  rw [hempty] at h
  exact absurd h (by decide)

end ByteClass

namespace Repeat

/-- Halving a sorted table leaves the entry that is looked for. -/
theorem narrow_eq {ranks : Array (UInt8 × Nat)} {b : UInt8} {base size k : Nat}
    {entry : UInt8 × Nat} (hsorted : ranks.toList.Pairwise fun x y => x.1 < y.1)
    (hk : ranks[k]? = some entry) (hb : entry.1 = b) (hlo : base ≤ k) (hhi : k < base + size)
    (hin : base + size ≤ ranks.size) : narrow ranks b base size = k := by
  induction size using Nat.strongRecOn generalizing base with
  | ind size ih =>
    rw [narrow]
    split
    · omega
    · next hsize =>
      have hmiddle : base + size / 2 < ranks.size := by omega
      have hlt : ∀ i j (hi : i < ranks.size) (hj : j < ranks.size), i < j →
          ranks[i].1 < ranks[j].1 := fun i j hi hj hij =>
        List.pairwise_iff_getElem.mp hsorted i j hi hj hij
      obtain ⟨hkl, rfl⟩ := Array.getElem?_eq_some_iff.mp hk
      simp only [Array.getElem?_eq_getElem hmiddle]
      by_cases habove : b < ranks[base + size / 2].1
      · -- The entry is in the lower half.
        have hkm : k < base + size / 2 := by
          rcases Nat.lt_trichotomy k (base + size / 2) with h | h | h
          · exact h
          · subst h
            rw [hb] at habove
            exact absurd habove (UInt8.lt_irrefl b)
          · have hcontra := hlt _ _ hmiddle hkl h
            rw [hb] at hcontra
            exact absurd (UInt8.lt_trans habove hcontra) (UInt8.lt_irrefl b)
        rw [decide_eq_true habove, if_pos rfl]
        exact ih _ (by omega) hlo (by omega) (by omega)
      · have hkm : base + size / 2 ≤ k := by
          refine Nat.le_of_not_lt fun h => habove ?_
          have hcontra := hlt _ _ hkl hmiddle h
          rwa [hb] at hcontra
        rw [decide_eq_false habove, if_neg (by simp)]
        exact ih _ (by omega) hkm (by omega) (by omega)

/-- Each byte of a sorted table has the rank of its entry. -/
theorem rankOf_eq {r : Repeat} {k : Nat} {b : UInt8} {rank : Nat}
    (hsorted : r.ranks.toList.Pairwise fun x y => x.1 < y.1) (hk : r.ranks[k]? = some (b, rank)) :
    r.rankOf b = rank := by
  have hlt : k < r.ranks.size := (Array.getElem?_eq_some_iff.mp hk).1
  unfold rankOf
  rw [narrow_eq hsorted hk rfl (Nat.zero_le k) (by omega) (by omega), hk]
  simp

/-- A byte without an entry has no rank. -/
theorem rankOf_eq_noRank {r : Repeat} {b : UInt8} (h : b ∉ r.ranks.toList.map Prod.fst) :
    r.rankOf b = noRank := by
  unfold rankOf
  split
  · next entry hentry =>
    have hmem := Array.mem_toList_iff.mpr (Array.mem_of_getElem? hentry)
    exact if_neg fun hb => h (List.mem_map.mpr ⟨entry, hmem, hb⟩)
  · rfl

end Repeat

end StreamMatch
