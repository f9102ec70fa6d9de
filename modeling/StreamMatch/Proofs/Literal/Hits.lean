-- The occurrences of needles in some bytes: all of them are found, each one
-- once, in the order of their ends.
import Mathlib.Data.List.Flatten
import Mathlib.Data.List.Nodup
import StreamMatch.Literal.Candidate
import StreamMatch.Proofs.Literal.Needles
import StreamMatch.Proofs.Literal.Ranks
import StreamMatch.Proofs.State.Fields

namespace StreamMatch

open Bytes

theorem PartOf.standsAt_iff {stream part needle : Bytes} {start pos : Nat}
    (h : PartOf stream start part) (hin : pos + needle.size ≤ part.size) :
    needle.standsAt part pos = true ↔ needle.standsAt stream (start + pos) = true := by
  have hle := h.le_size
  have hbytes : ∀ i, i < needle.size →
      byteAt part (pos + i) = byteAt stream (start + pos + i) := by
    intro i hi
    rw [h.byteAt_eq _ (by omega), Nat.add_assoc]
  rw [standsAt_iff_byteAt, standsAt_iff_byteAt]
  constructor
  · rintro ⟨-, hb⟩
    refine ⟨by omega, fun i hi => ?_⟩
    rw [← hbytes i hi, hb i hi]
  · rintro ⟨-, hb⟩
    refine ⟨hin, fun i hi => ?_⟩
    rw [hbytes i hi, hb i hi]

/-- The literals of a program: none of them is empty, and their identifiers are
all different. -/
structure Searchable (literals : List Bytes) : Prop where
  length_le : literals.length ≤ 0x100000000
  size_pos : ∀ bytes ∈ literals, 0 < bytes.size

namespace Searchable

variable {literals : List Bytes}

theorem not_isEmpty (h : Searchable literals) {n : Needle}
    (hn : n ∈ (LiteralTable.ofLiterals literals).needles) : n.bytes.isEmpty = false := by
  have hpos := h.size_pos _ (Needle.bytes_mem_of_mem_ofLiterals hn)
  simp only [ByteArray.isEmpty, beq_eq_false_iff_ne, ne_eq]
  omega

end Searchable

/-! ## The search for one needle -/

namespace Needle

variable {needle bytes : Bytes} {pos start : Nat}

theorem firstWithin_eq_some {count : Nat} (h : firstWithin needle bytes count pos = some start) :
    pos ≤ start ∧ needle.standsAt bytes start = true ∧
      ∀ before, pos ≤ before → before < start → needle.standsAt bytes before = false := by
  induction count generalizing pos with
  | zero => cases h
  | succ count ih =>
    rw [firstWithin] at h
    split at h
    · next hstands =>
      cases h
      exact ⟨Nat.le_refl _, hstands, fun before hle hlt => absurd hlt (Nat.not_lt.mpr hle)⟩
    · next hstands =>
      obtain ⟨hle, hstart, hbefore⟩ := ih h
      refine ⟨by omega, hstart, fun before hlo hlt => ?_⟩
      rcases Nat.eq_or_lt_of_le hlo with rfl | hlo
      · simpa using hstands
      · exact hbefore before hlo hlt

theorem firstWithin_eq_none {count : Nat} (h : firstWithin needle bytes count pos = none) :
    ∀ start, pos ≤ start → start < pos + count → needle.standsAt bytes start = false := by
  induction count generalizing pos with
  | zero => exact fun start hle hlt => absurd hlt (Nat.not_lt.mpr hle)
  | succ count ih =>
    rw [firstWithin] at h
    split at h
    · cases h
    · next hstands =>
      intro start hle hlt
      rcases Nat.eq_or_lt_of_le hle with rfl | hle
      · simpa using hstands
      · exact ih h start hle (by omega)

/-- Where a needle is not found, it does not occur from there on. -/
theorem firstFrom_eq_none (h : firstFrom needle bytes pos = none) (hle : pos ≤ start) :
    needle.standsAt bytes start = false := by
  by_cases hlt : start < pos + (bytes.size + 1 - pos)
  · exact firstWithin_eq_none h start hle hlt
  · rw [Bool.eq_false_iff]
    intro hstands
    have hin := (standsAt_iff.mp hstands).1
    omega

/-- What is found is what was found before and the positions at which the needle occurs
from `pos` on. -/
theorem mem_searchFrom {found : Array Nat} {count : Nat} (h : bytes.size < pos + count) :
    start ∈ searchFrom needle bytes found count pos ↔
      start ∈ found ∨ pos ≤ start ∧ needle.standsAt bytes start = true := by
  induction count generalizing found pos with
  | zero =>
    refine ⟨Or.inl, fun h => h.resolve_right ?_⟩
    rintro ⟨hle, hstands⟩
    have hin := (standsAt_iff.mp hstands).1
    omega
  | succ count ih =>
    rw [searchFrom]
    split
    · next hnone =>
      refine ⟨Or.inl, fun h => h.resolve_right ?_⟩
      rintro ⟨hle, hstands⟩
      rw [firstFrom_eq_none hnone hle] at hstands
      cases hstands
    · next first hfirst =>
      obtain ⟨hlo, hoccurs, hbefore⟩ := firstWithin_eq_some hfirst
      rw [ih (by omega), Array.mem_push, or_assoc]
      refine or_congr_right ⟨?_, ?_⟩
      · rintro (rfl | ⟨hle, hstands⟩)
        · exact ⟨hlo, hoccurs⟩
        · exact ⟨by omega, hstands⟩
      · rintro ⟨hle, hstands⟩
        rcases Nat.lt_trichotomy start first with hlt | rfl | hlt
        · rw [hbefore start hle hlt] at hstands
          cases hstands
        · exact Or.inl rfl
        · exact Or.inr ⟨hlt, hstands⟩

/-- Each occurrence is found after those that start before it. -/
theorem pairwise_searchFrom {found : Array Nat} {count : Nat}
    (h : found.toList.Pairwise fun a b => a < b) (hlt : ∀ a ∈ found, a < pos) :
    (searchFrom needle bytes found count pos).toList.Pairwise fun a b => a < b := by
  induction count generalizing found pos with
  | zero => exact h
  | succ count ih =>
    rw [searchFrom]
    split
    · exact h
    · next first hfirst =>
      have hlo := (firstWithin_eq_some hfirst).1
      refine ih ?_ ?_
      · rw [Array.toList_push, List.pairwise_append]
        refine ⟨h, List.pairwise_singleton _ _, fun a ha b hb => ?_⟩
        have ha := hlt a (Array.mem_toList_iff.mp ha)
        rw [List.mem_singleton] at hb
        omega
      · intro a ha
        rcases Array.mem_push.mp ha with ha | rfl
        · have ha := hlt a ha
          omega
        · exact Nat.lt_succ_self _

end Needle

namespace Hit

variable {literals : List Bytes} {needles : List Needle} {bytes : Bytes} {first : Nat}
  {hits : List Hit} {hit : Hit}

/-! ## What a search finds -/

/-- What a search for needles has to find: each occurrence that ends at position `first`
or after it, once, in the order of the ends. -/
structure Finds (needles : List Needle) (bytes : Bytes) (first : Nat) (hits : List Hit) : Prop where
  mem_iff : ∀ hit : Hit, hit ∈ hits ↔
    hit.needle ∈ needles ∧ hit.needle.endsIn bytes hit.endsAt = true ∧ first ≤ hit.endsAt
  nodup : hits.Nodup
  ordered : hits.Pairwise fun a b => a.endsAt ≤ b.endsAt

theorem finds_hitsOfOne (n : Needle) (bytes : Bytes) (first : Nat) :
    Finds [n] bytes first (hitsOfOne n bytes first) := by
  have hsearch : (Needle.searchFrom n.bytes bytes #[] (bytes.size + 1)
      (first - n.bytes.size)).toList.Pairwise fun a b => a < b :=
    Needle.pairwise_searchFrom List.Pairwise.nil fun a ha => absurd ha (Array.not_mem_empty a)
  unfold hitsOfOne
  refine ⟨fun hit => ?_, ?_, ?_⟩
  · rw [List.mem_map, List.mem_singleton, Needle.endsIn_iff]
    simp only [Array.mem_toList_iff]
    constructor
    · rintro ⟨start, hstart, rfl⟩
      rw [Needle.mem_searchFrom (by omega)] at hstart
      obtain ⟨hle, hstands⟩ := hstart.resolve_left (Array.not_mem_empty start)
      rw [Nat.add_sub_cancel]
      exact ⟨rfl, ⟨Nat.le_add_left _ _, hstands⟩, Nat.sub_le_iff_le_add.mp hle⟩
    · rintro ⟨hneedle, ⟨hsize, hstands⟩, hfirst⟩
      obtain ⟨last, m⟩ := hit
      simp only at hneedle hsize hstands hfirst
      subst hneedle
      refine ⟨last - m.bytes.size, (Needle.mem_searchFrom (by omega)).mpr (Or.inr ⟨?_, hstands⟩), ?_⟩
      · omega
      · rw [Nat.sub_add_cancel hsize]
  · have hdiffer : List.Nodup _ := hsearch.imp Nat.ne_of_lt
    exact hdiffer.map fun _ _ heq => Nat.add_right_cancel (Hit.mk.inj heq).1
  · rw [List.pairwise_map]
    exact hsearch.imp fun hlt => Nat.add_le_add_right (Nat.le_of_lt hlt) _

/-- The needles that occur with their end at a position. -/
def needlesAt (needles : List Needle) (bytes : Bytes) (last : Nat) : List Needle :=
  ((NeedleIndex.ofNeedles needles).endingAt bytes last).filter (·.endsIn bytes last)

theorem mem_needlesAt {last : Nat} {n : Needle} :
    n ∈ needlesAt needles bytes last ↔ n ∈ needles ∧ n.endsIn bytes last = true := by
  unfold needlesAt
  rw [List.mem_filter]
  constructor
  · rintro ⟨hn, he⟩
    exact ⟨(NeedleIndex.mem_endingAt_iff he).mp hn, he⟩
  · rintro ⟨hn, he⟩
    exact ⟨(NeedleIndex.mem_endingAt_iff he).mpr hn, he⟩

section Several

variable (hempty : ∀ n ∈ needles, n.bytes.isEmpty = false)

include hempty

theorem hitsOfSeveral_eq (bytes : Bytes) (first : Nat) :
    hitsOfSeveral needles (.ofNeedles needles) bytes first =
      (List.range' first (bytes.size + 1 - first)).flatMap fun last =>
        (needlesAt needles bytes last).map fun n => ⟨last, n⟩ := by
  have hone : ∀ (times : Array Nat) (last : Nat),
      (needlesAt needles bytes last).flatMap (Needle.hitsAt times last) =
        (needlesAt needles bytes last).map fun n => ⟨last, n⟩ := by
    intro times last
    rw [List.map_eq_flatMap]
    refine List.flatMap_congr fun n hn => ?_
    rw [Needle.hitsAt_of_not_isEmpty (hempty n (mem_needlesAt.mp hn).1)]
  unfold hitsOfSeveral
  simp only [← hone (Needle.emptyTimes needles bytes)]
  rfl

/-- The needles that occur somewhere are some of the needles, in their order. -/
theorem needlesAt_sublist (bytes : Bytes) (last : Nat) :
    (needlesAt needles bytes last).Sublist needles := by
  have hempties : (NeedleIndex.ofNeedles needles).empties = [] := by
    refine (NeedleIndex.empties_ofNeedles _).trans (List.filter_eq_nil_iff.mpr ?_)
    intro n hn
    simp [hempty n hn]
  refine List.filter_sublist.trans ?_
  unfold NeedleIndex.endingAt
  rw [hempties, List.nil_append]
  split
  · exact List.nil_sublist _
  · exact (NeedleIndex.ending_ofNeedles _ _).symm ▸ List.filter_sublist

theorem finds_hitsOfSeveral (hnodup : needles.Nodup) (bytes : Bytes) (first : Nat) :
    Finds needles bytes first (hitsOfSeveral needles (.ofNeedles needles) bytes first) := by
  rw [hitsOfSeveral_eq hempty]
  refine ⟨fun hit => ?_, ?_, ?_⟩
  · rw [List.mem_flatMap]
    constructor
    · rintro ⟨last, hlast, hhit⟩
      obtain ⟨n, hn, rfl⟩ := List.mem_map.mp hhit
      obtain ⟨hmem, hends⟩ := mem_needlesAt.mp hn
      exact ⟨hmem, hends, (List.mem_range'_1.mp hlast).1⟩
    · rintro ⟨hmem, hends, hfirst⟩
      obtain ⟨hsize, hstands⟩ := Needle.endsIn_iff.mp hends
      have hin := (standsAt_iff.mp hstands).1
      refine ⟨hit.endsAt, List.mem_range'_1.mpr ⟨hfirst, by omega⟩, ?_⟩
      exact List.mem_map.mpr ⟨hit.needle, mem_needlesAt.mpr ⟨hmem, hends⟩, rfl⟩
  · rw [List.nodup_flatMap]
    constructor
    · intro last _
      exact (hnodup.sublist (needlesAt_sublist hempty bytes last)).map
        fun _ _ heq => (Hit.mk.inj heq).2
    · refine (List.nodup_range' 1).imp ?_
      intro last last' hne hit hmem hmem'
      obtain ⟨m, -, rfl⟩ := List.mem_map.mp hmem
      obtain ⟨m', -, heq⟩ := List.mem_map.mp hmem'
      exact hne (Hit.mk.inj heq).1.symm
  · rw [List.pairwise_flatMap]
    constructor
    · intro last _
      rw [List.pairwise_map]
      exact List.pairwise_of_forall fun _ _ => Nat.le_refl last
    · refine (List.pairwise_lt_range' 1).imp ?_
      intro i j hij a ha b hb
      obtain ⟨n, -, rfl⟩ := List.mem_map.mp ha
      obtain ⟨m, -, rfl⟩ := List.mem_map.mp hb
      exact Nat.le_of_lt hij

end Several

/-- However many needles there are, the search finds what it has to. -/
theorem finds_hitsFrom (h : Searchable literals) (bytes : Bytes) (first : Nat) :
    Finds (LiteralTable.ofLiterals literals).needles bytes first
      (hitsFrom (LiteralTable.ofLiterals literals) bytes first) := by
  have hnodup : (LiteralTable.ofLiterals literals).needles.Nodup :=
    (Needle.nodup_bytes_ofLiterals literals).of_map _
  have hindex : (LiteralTable.ofLiterals literals).index =
    .ofNeedles (LiteralTable.ofLiterals literals).needles := rfl
  have hempty : ∀ n ∈ (LiteralTable.ofLiterals literals).needles, n.bytes.isEmpty = false :=
    fun n => h.not_isEmpty
  unfold hitsFrom
  rw [hindex]
  generalize (LiteralTable.ofLiterals literals).needles = needles at hnodup hempty ⊢
  match needles with
  | [] => exact ⟨fun hit => by simp, List.nodup_nil, List.Pairwise.nil⟩
  | [n] => exact finds_hitsOfOne n bytes first
  | n :: m :: rest => exact finds_hitsOfSeveral hempty hnodup bytes first

/-! ## Candidates -/

/-- The candidates of an occurrence, with the ranks of the table. -/
def expand (table : LiteralTable) (h : Hit) : List Candidate :=
  h.needle.literals.map fun id => ⟨h.endsAt, id, table.rank id⟩

/-- The literals of a needle are in the table. -/
theorem toNat_lt_size (h : Searchable literals) {n : Needle} {id : LiteralId}
    (hn : n ∈ (LiteralTable.ofLiterals literals).needles) (hid : id ∈ n.literals) :
    id.toNat < (LiteralTable.ofLiterals literals).size := by
  rw [LiteralTable.size_ofLiterals]
  exact (List.getElem?_eq_some_iff.mp (Needle.mem_literals_ofLiterals h.length_le hn hid)).1

theorem candidates_eq_expand (h : Searchable literals)
    (hn : hit.needle ∈ (LiteralTable.ofLiterals literals).needles) :
    hit.candidates (LiteralTable.ofLiterals literals) =
      .ok (hit.expand (LiteralTable.ofLiterals literals)) := by
  refine Checked.mapM_eq_ok fun id hid => ?_
  rw [LiteralTable.rankOf_eq (toNat_lt_size h hn hid)]
  rfl

theorem mem_expand {table : LiteralTable} {c : Candidate} :
    c ∈ hit.expand table ↔
      c.endsAt = hit.endsAt ∧ c.literal ∈ hit.needle.literals ∧ c.rank = table.rank c.literal := by
  unfold expand
  rw [List.mem_map]
  constructor
  · rintro ⟨id, hid, rfl⟩
    exact ⟨rfl, hid, rfl⟩
  · rintro ⟨hends, hid, hrank⟩
    refine ⟨c.literal, hid, ?_⟩
    cases c
    simp_all

/-- Where each occurrence is found once, each literal is found once at each end. -/
theorem Finds.nodup_expand (h : Searchable literals)
    (hfinds : Finds (LiteralTable.ofLiterals literals).needles bytes first hits) :
    (hits.flatMap (expand (LiteralTable.ofLiterals literals))).Nodup := by
  have hids := List.nodup_flatMap.mp (Needle.nodup_flatMap_ofLiterals h.length_le)
  rw [List.nodup_flatMap]
  constructor
  · intro hit hhit
    refine (hids.1 hit.needle ((hfinds.mem_iff hit).mp hhit).1).map ?_
    exact fun _ _ heq => (Candidate.mk.inj heq).2.1
  · refine hfinds.nodup.imp_of_mem ?_
    intro a b ha hb hne c hca hcb
    obtain ⟨henda, hida, -⟩ := mem_expand.mp hca
    obtain ⟨hendb, hidb, -⟩ := mem_expand.mp hcb
    have hneedle := Needle.eq_of_mem_literals h.length_le ((hfinds.mem_iff a).mp ha).1
      ((hfinds.mem_iff b).mp hb).1 hida hidb
    refine hne ?_
    cases a
    cases b
    exact Hit.mk.injEq .. ▸ ⟨henda.symm.trans hendb, hneedle⟩

end Hit

end StreamMatch
