-- The ranks of the literals of a table: the rank of a literal is its position in
-- the order of the literals, where each has one position, and that is how many
-- literals are longer, or as long and given before it.
import StreamMatch.Literal.Table

namespace StreamMatch

theorem le_foldl_max {n a : Nat} {xs : List Nat} (h : n ≤ a ∨ n ∈ xs) : n ≤ xs.foldl max a := by
  induction xs generalizing a with
  | nil => exact h.resolve_right List.not_mem_nil
  | cons x rest ih =>
    refine ih ?_
    rcases h with h | h
    · exact Or.inl (Nat.le_trans h (Nat.le_max_left a x))
    · rcases List.mem_cons.mp h with rfl | h
      · exact Or.inl (Nat.le_max_right a n)
      · exact Or.inr h

namespace LiteralTable

/-! ## Assigned ranks -/

theorem size_assign (ranks : Array Nat) (rank : Nat) (is : List Nat) :
    (assign ranks rank is).size = ranks.size := by
  induction is generalizing ranks rank with
  | nil => rfl
  | cons i rest ih => rw [assign, ih, Array.size_setIfInBounds]

theorem assign_getElem?_of_not_mem {ranks : Array Nat} {rank i : Nat} {is : List Nat}
    (h : i ∉ is) : (assign ranks rank is)[i]? = ranks[i]? := by
  induction is generalizing ranks rank with
  | nil => rfl
  | cons j rest ih =>
    rw [List.mem_cons, not_or] at h
    rw [assign, ih h.2, Array.getElem?_setIfInBounds_ne (Ne.symm h.1)]

/-- The position of a literal in the order is its rank. -/
theorem assign_getElem? {ranks : Array Nat} (rank : Nat) {i j : Nat} {is : List Nat}
    (hnodup : is.Nodup) (hi : i < ranks.size) (hj : is[j]? = some i) :
    (assign ranks rank is)[i]? = some (rank + j) := by
  induction is generalizing ranks rank j with
  | nil => simp at hj
  | cons k rest ih =>
    obtain ⟨hk, hrest⟩ := List.nodup_cons.mp hnodup
    rw [assign]
    cases j with
    | zero =>
      rw [List.getElem?_cons_zero, Option.some.injEq] at hj
      subst hj
      rw [assign_getElem?_of_not_mem hk, Array.getElem?_setIfInBounds_self_of_lt hi, Nat.add_zero]
    | succ j =>
      rw [List.getElem?_cons_succ] at hj
      rw [ih _ hrest (by rwa [Array.size_setIfInBounds]) hj]
      congr 1
      omega

/-! ## The order of the literals -/

theorem order_perm (lengths : Array Nat) : (order lengths).Perm (List.range lengths.size) :=
  List.mergeSort_perm _ _

theorem nodup_order (lengths : Array Nat) : (order lengths).Nodup :=
  (order_perm lengths).nodup_iff.mpr List.nodup_range

variable {literals : List Bytes}

theorem size_ofLiterals (literals : List Bytes) : (ofLiterals literals).size = literals.length := by
  unfold size ofLiterals
  simp [size_assign]

theorem size_le_longest {bytes : Bytes} (h : bytes ∈ literals) :
    bytes.size ≤ (ofLiterals literals).longest := by
  unfold longest ofLiterals
  simp only [List.foldl_toArray]
  exact le_foldl_max (Or.inr (List.mem_map_of_mem h))

/-- Each literal stands once in the order, at the position of its rank. -/
theorem order_rank {id : LiteralId} (h : id.toNat < literals.length) :
    (order (ofLiterals literals).lengths)[(ofLiterals literals).rank id]? = some id.toNat := by
  have hlengths : (ofLiterals literals).lengths.size = literals.length := by simp [ofLiterals]
  have hmem : id.toNat ∈ order (ofLiterals literals).lengths := by
    rw [(order_perm _).mem_iff, List.mem_range, hlengths]
    exact h
  obtain ⟨j, hj⟩ := List.mem_iff_getElem?.mp hmem
  have hsize : id.toNat < (Array.replicate (ofLiterals literals).lengths.size 0).size := by
    rw [Array.size_replicate, hlengths]
    exact h
  have hrank : (ofLiterals literals).rank id = j := by
    have hget := assign_getElem? 0 (nodup_order _) hsize hj
    unfold rank
    rw [Nat.zero_add] at hget
    have hranks : (ofLiterals literals).ranks = assign
        (Array.replicate (ofLiterals literals).lengths.size 0) 0
        (order (ofLiterals literals).lengths) := rfl
    rw [hranks, hget, Option.getD_some]
  rw [hrank, hj]

theorem rank_lt {id : LiteralId} (h : id.toNat < literals.length) :
    (ofLiterals literals).rank id < literals.length := by
  obtain ⟨hlt, -⟩ := List.getElem?_eq_some_iff.mp (order_rank h)
  rw [(order_perm _).length_eq, List.length_range] at hlt
  simpa [ofLiterals] using hlt

/-- The rank of a literal that is not in the table is small, too. -/
theorem rank_lt_of_length_le {n : Nat} (h : literals.length ≤ n) (hn : 0 < n) (id : LiteralId) :
    (ofLiterals literals).rank id < n := by
  by_cases hid : id.toNat < literals.length
  · exact Nat.lt_of_lt_of_le (rank_lt hid) h
  · have hsize := size_ofLiterals literals
    unfold size at hsize
    unfold rank
    rw [Array.getElem?_eq_none (by omega)]
    exact hn

/-- Literals with the same rank are the same. -/
theorem rank_inj {id id' : LiteralId} (h : id.toNat < literals.length)
    (h' : id'.toNat < literals.length)
    (heq : (ofLiterals literals).rank id = (ofLiterals literals).rank id') : id = id' := by
  have ho := order_rank h
  rw [heq, order_rank h', Option.some.injEq] at ho
  rw [← Id.ofNat_toNat id, ← Id.ofNat_toNat id', ho]

/-! ## What goes before a literal -/

/-- The length of the literal at a position, zero if there is none. -/
def sizeAt (literals : List Bytes) (i : Nat) : Nat := (literals[i]?.map ByteArray.size).getD 0

/-- A literal goes before another one if it is longer, or as long and given
before it. -/
def GoesBefore (literals : List Bytes) (i j : Nat) : Prop :=
  sizeAt literals j < sizeAt literals i ∨ sizeAt literals i = sizeAt literals j ∧ i < j

instance (literals : List Bytes) (i j : Nat) : Decidable (GoesBefore literals i j) :=
  inferInstanceAs (Decidable (_ ∨ _ ∧ _))

/-- How many literals go before a literal. -/
def placeOf (literals : List Bytes) (i : Nat) : Nat :=
  (List.range literals.length).countP fun j => decide (GoesBefore literals j i)

theorem GoesBefore.asymm {i j : Nat} (h : GoesBefore literals i j) : ¬GoesBefore literals j i := by
  unfold GoesBefore at *
  omega

theorem GoesBefore.irrefl (i : Nat) : ¬GoesBefore literals i i := fun h => h.asymm h

theorem lengths_getD (literals : List Bytes) (i : Nat) :
    (ofLiterals literals).lengths[i]?.getD 0 = sizeAt literals i := by
  simp [ofLiterals, sizeAt]

/-- Positions that are sorted by a size, larger ones first, are in their own order
where the sizes are the same: the sort is one of pairs, whose second part is the
position in the list. -/
theorem pairwise_mergeSort_range (size : Nat → Nat) (n : Nat) :
    ((List.range n).mergeSort fun i j => decide (size j ≤ size i)).Pairwise
      fun i j => size j < size i ∨ size i = size j ∧ i < j := by
  have hsorted : ((List.range n).zipIdx.mergeSort
      (List.zipIdxLE fun i j => decide (size j ≤ size i))).Pairwise
        fun a b => List.zipIdxLE (fun i j => decide (size j ≤ size i)) a b = true :=
    List.pairwise_mergeSort
      (List.zipIdxLE_trans fun a b c hab hbc => by simp only [decide_eq_true_iff] at *; omega)
      (List.zipIdxLE_total fun a b => by simp only [Bool.or_eq_true, decide_eq_true_iff]; omega) _
  have hdiffer : ((List.range n).mergeSort fun i j => decide (size j ≤ size i)).Nodup :=
    (List.mergeSort_perm _ _).nodup_iff.mpr List.nodup_range
  have hposition : ∀ p ∈ (List.range n).zipIdx, p.2 = p.1 := by
    intro p hp
    obtain ⟨_, hget⟩ := List.getElem?_eq_some_iff.mp (List.mem_zipIdx_iff_getElem?.mp hp)
    rwa [List.getElem_range] at hget
  rw [← List.mergeSort_zipIdx] at hdiffer ⊢
  rw [List.Nodup, List.pairwise_map] at hdiffer
  rw [List.pairwise_map]
  refine (hsorted.and hdiffer).imp_of_mem ?_
  rintro a b ha hb ⟨hle, hne⟩
  have hpa := hposition a (List.mem_mergeSort.mp ha)
  have hpb := hposition b (List.mem_mergeSort.mp hb)
  simp only [List.zipIdxLE, decide_eq_true_iff] at hle
  split at hle
  · split at hle
    · have hle := of_decide_eq_true hle
      omega
    · omega
  · cases hle

/-- The order has the longer literals first, and those of the same length as they
were given. -/
theorem pairwise_order (literals : List Bytes) :
    (order (ofLiterals literals).lengths).Pairwise (GoesBefore literals) := by
  unfold order
  simp only [lengths_getD]
  exact pairwise_mergeSort_range _ _

/-- In a list that is ordered, what goes before the element at position `k` are
the `k` elements before it. -/
theorem countP_goesBefore {is : List Nat} (h : is.Pairwise (GoesBefore literals)) {k i : Nat}
    (hk : is[k]? = some i) : is.countP (fun j => decide (GoesBefore literals j i)) = k := by
  induction is generalizing k with
  | nil => simp at hk
  | cons j rest ih =>
    obtain ⟨hj, hrest⟩ := List.pairwise_cons.mp h
    cases k with
    | zero =>
      rw [List.getElem?_cons_zero, Option.some.injEq] at hk
      subst hk
      rw [List.countP_eq_zero]
      intro m hm
      rw [decide_eq_true_iff]
      rcases List.mem_cons.mp hm with rfl | hm
      · exact GoesBefore.irrefl m
      · exact (hj m hm).asymm
    | succ k =>
      rw [List.getElem?_cons_succ] at hk
      have hi : decide (GoesBefore literals j i) = true :=
        decide_eq_true (hj i (List.mem_of_getElem? hk))
      rw [List.countP_cons, if_pos hi, ih hrest hk]

/-- The rank of a literal is how many literals go before it. -/
theorem rank_eq_placeOf {id : LiteralId} (h : id.toNat < literals.length) :
    (ofLiterals literals).rank id = placeOf literals id.toNat := by
  have hlengths : (ofLiterals literals).lengths.size = literals.length := by simp [ofLiterals]
  rw [← countP_goesBefore (pairwise_order literals) (order_rank h), (order_perm _).countP_eq,
    hlengths]
  rfl

/-! ## Ranks and the order -/

/-- A literal has a smaller rank than those that it goes before. -/
theorem rank_lt_rank_iff {id id' : LiteralId} (h : id.toNat < literals.length)
    (h' : id'.toNat < literals.length) :
    (ofLiterals literals).rank id < (ofLiterals literals).rank id' ↔
      GoesBefore literals id.toNat id'.toNat := by
  have hpairs := List.pairwise_iff_getElem.mp (pairwise_order literals)
  obtain ⟨hk, hget⟩ := List.getElem?_eq_some_iff.mp (order_rank h)
  obtain ⟨hk', hget'⟩ := List.getElem?_eq_some_iff.mp (order_rank h')
  have hbefore := hpairs _ _ hk hk'
  have hafter := hpairs _ _ hk' hk
  rw [hget, hget'] at hbefore hafter
  refine ⟨hbefore, fun hgoes => ?_⟩
  rcases Nat.lt_trichotomy ((ofLiterals literals).rank id) ((ofLiterals literals).rank id') with
    hlt | heq | hgt
  · exact hlt
  · rw [rank_inj h h' heq] at hgoes
    exact absurd hgoes (GoesBefore.irrefl _)
  · exact absurd (hafter hgt) hgoes.asymm

/-- The literal at a position of the order has that position as its rank. -/
theorem rank_order (hlt : literals.length ≤ 0x100000000) {k i : Nat}
    (hk : (order (ofLiterals literals).lengths)[k]? = some i) :
    (ofLiterals literals).rank (.ofNat i) = k := by
  have hlengths : (ofLiterals literals).lengths.size = literals.length := by simp [ofLiterals]
  have hi : i < literals.length := by
    have hmem := (order_perm _).mem_iff.mp (List.mem_of_getElem? hk)
    rwa [List.mem_range, hlengths] at hmem
  have hid : (.ofNat i : LiteralId).toNat = i := Id.toNat_ofNat_of_lt (Nat.lt_of_lt_of_le hi hlt)
  have hrank := countP_goesBefore (pairwise_order literals) (order_rank (hid.symm ▸ hi))
  rw [hid] at hrank
  exact hrank.symm.trans (countP_goesBefore (pairwise_order literals) hk)

/-- Each number below that of the literals is the rank of one literal. -/
theorem ranks_perm (hlt : literals.length ≤ 0x100000000) :
    ((List.range literals.length).map fun i => (ofLiterals literals).rank (.ofNat i)).Perm
      (List.range literals.length) := by
  have hlengths : (ofLiterals literals).lengths.size = literals.length := by simp [ofLiterals]
  have hperm := order_perm (ofLiterals literals).lengths
  rw [hlengths] at hperm
  have hranks : (order (ofLiterals literals).lengths).map
      (fun i => (ofLiterals literals).rank (.ofNat i)) = List.range literals.length := by
    apply List.ext_getElem
    · rw [List.length_map, hperm.length_eq]
    · intro k hk _
      rw [List.length_map] at hk
      rw [List.getElem_map, List.getElem_range]
      exact rank_order hlt (List.getElem?_eq_getElem hk)
  exact (hperm.map _).symm.trans (.of_eq hranks)

end LiteralTable

end StreamMatch
