-- The candidates of a chunk are the occurrences of the literals in the stream,
-- each one once, in the order of their keys. Those that start in the history
-- are found in the seam, which has enough of the chunk for every literal.
import Mathlib.Data.List.Perm.Subperm
import Mathlib.Data.List.SplitBy
import Mathlib.Data.List.TakeDrop
import Mathlib.Data.List.TakeWhile
import StreamMatch.Proofs.Literal.Hits

namespace StreamMatch

open Bytes

/-! ## Groups -/

namespace Hit

/-- All of the occurrences in the first group end before those in the second
one. -/
def Before (g g' : List Hit) : Prop := ∀ a ∈ g, ∀ b ∈ g', a.endsAt < b.endsAt

/-- The groups of occurrences that end together. -/
def together (hits : List Hit) : List (List Hit) := hits.splitBy fun a b => a.endsAt == b.endsAt

theorem endsAt_eq_of_mem_together {hits g : List Hit} (hg : g ∈ together hits) :
    ∀ a ∈ g, ∀ b ∈ g, a.endsAt = b.endsAt := by
  have hchain : g.IsChain fun a b : Hit => a.endsAt = b.endsAt :=
    (List.isChain_of_mem_splitBy hg).imp fun a b h => beq_iff_eq.mp h
  have : Trans (fun a b : Hit => a.endsAt = b.endsAt) (fun a b : Hit => a.endsAt = b.endsAt)
      (fun a b : Hit => a.endsAt = b.endsAt) := ⟨Eq.trans⟩
  have : Std.Symm fun a b : Hit => a.endsAt = b.endsAt := ⟨fun _ _ => Eq.symm⟩
  intro a ha b hb
  exact List.Pairwise.forall_of_forall (R := fun a b : Hit => a.endsAt = b.endsAt)
    (fun _ _ => rfl) hchain.pairwise ha hb

/-- Groups whose occurrences end together, and that differ from the next group,
are in the order of their ends if the occurrences are. -/
theorem pairwise_before {groups : List (List Hit)}
    (hsame : ∀ g ∈ groups, ∀ a ∈ g, ∀ b ∈ g, a.endsAt = b.endsAt)
    (hle : groups.Pairwise fun g g' => ∀ a ∈ g, ∀ b ∈ g', a.endsAt ≤ b.endsAt)
    (hdiffer : groups.IsChain fun g g' => ∃ ha hb, (g.getLast ha).endsAt ≠ (g'.head hb).endsAt) :
    groups.Pairwise Before := by
  induction groups with
  | nil => exact List.Pairwise.nil
  | cons g rest ih =>
    obtain ⟨hg, hrest⟩ := List.pairwise_cons.mp hle
    have hrec := ih (fun g' hg' => hsame g' (List.mem_cons_of_mem g hg')) hrest
      (List.isChain_cons.mp hdiffer).2
    refine List.pairwise_cons.mpr ⟨?_, hrec⟩
    intro g' hg' a ha b hb
    rcases rest with _ | ⟨next, rest⟩
    · exact absurd hg' List.not_mem_nil
    · obtain ⟨hne, hne', hends⟩ := (List.isChain_cons.mp hdiffer).1 next rfl
      have hlast := hsame g List.mem_cons_self a ha _ (List.getLast_mem hne)
      have hnext := hg next List.mem_cons_self _ (List.getLast_mem hne) _ (List.head_mem hne')
      have hb' : (next.head hne').endsAt ≤ b.endsAt := by
        rcases List.mem_cons.mp hg' with rfl | hg'
        · exact Nat.le_of_eq (hsame _ (List.mem_cons_of_mem g List.mem_cons_self) _
            (List.head_mem hne') b hb)
        · exact Nat.le_of_lt (List.rel_of_pairwise_cons hrec hg' _ (List.head_mem hne') b hb)
      omega

theorem pairwise_together {hits : List Hit} (h : hits.Pairwise fun a b => a.endsAt ≤ b.endsAt) :
    (together hits).Pairwise Before := by
  have hflatten : (together hits).flatten = hits := List.flatten_splitBy _ _
  rw [← hflatten, List.pairwise_flatten] at h
  refine pairwise_before (fun g hg => endsAt_eq_of_mem_together hg) h.2 ?_
  refine (List.isChain_getLast_head_splitBy _ hits).imp ?_
  rintro g g' ⟨hne, hne', hends⟩
  exact ⟨hne, hne', by simpa using hends⟩

/-- A search whose occurrences all have an offset is not limited. -/
theorem limit_eq {hits : List Hit} (h : ∀ a ∈ hits, a.endsAt < Word.bound) :
    limit hits = Word.bound := by
  have hall : ∀ a ∈ hits, decide (a.endsAt < Word.bound) = true :=
    fun a ha => decide_eq_true (h a ha)
  unfold limit
  rw [List.span_eq_takeWhile_dropWhile, List.dropWhile_eq_nil_iff.mpr hall]

/-- An occurrence in a stream, from an offset on. -/
structure StandsAt (literals : List Bytes) (stream : Bytes) (hit : Hit) (start : Nat) : Prop where
  needle : hit.needle ∈ (LiteralTable.ofLiterals literals).needles
  ends : hit.endsAt = start + hit.needle.bytes.size
  stands : hit.needle.bytes.standsAt stream start = true

section Part

variable {literals : List Bytes} {stream part : Bytes} {offset first start : Nat}
  {hits : List Hit} {hit : Hit}

/-- What is found in a part of a stream stands in the stream. -/
theorem standsAt_shift (hfinds : Finds (LiteralTable.ofLiterals literals).needles part first hits)
    (hpart : PartOf stream offset part) (hhit : hit ∈ hits) :
    (hit.shift offset).StandsAt literals stream (offset + hit.startsAt) ∧
      offset + first ≤ (hit.shift offset).endsAt ∧
      (hit.shift offset).endsAt ≤ offset + part.size := by
  obtain ⟨hneedle, hends, hfirst⟩ := (hfinds.mem_iff hit).mp hhit
  obtain ⟨hsize, hstands⟩ := Needle.endsIn_iff.mp hends
  have hin := (Bytes.standsAt_iff.mp hstands).1
  unfold startsAt shift
  refine ⟨⟨hneedle, ?_, ?_⟩, by simp only; omega, by simp only; omega⟩
  · simp only
    omega
  · exact (hpart.standsAt_iff (show hit.endsAt - hit.needle.bytes.size +
      hit.needle.bytes.size ≤ part.size by omega)).mp hstands

/-- What stands in a stream is found in each part that it is inside of. -/
theorem exists_shift
    (hfinds : Finds (LiteralTable.ofLiterals literals).needles part (first - offset) hits)
    (hpart : PartOf stream offset part) (hstands : hit.StandsAt literals stream start)
    (hlo : offset ≤ start) (hend : hit.endsAt ≤ offset + part.size) (hfirst : first ≤ hit.endsAt) :
    ∃ found ∈ hits, found.startsAt = start - offset ∧ found.shift offset = hit := by
  obtain ⟨hneedle, hends, hstands⟩ := hstands
  refine ⟨⟨hit.endsAt - offset, hit.needle⟩,
    (hfinds.mem_iff _).mpr ⟨hneedle, Needle.endsIn_iff.mpr ⟨?_, ?_⟩, ?_⟩, ?_, ?_⟩
  · simp only
    omega
  · refine (hpart.standsAt_iff (by simp only; omega)).mpr ?_
    simp only
    rwa [show offset + (hit.endsAt - offset - hit.needle.bytes.size) = start by omega]
  · exact Nat.sub_le_sub_right hfirst offset
  · unfold startsAt
    simp only
    omega
  · unfold shift
    cases hit
    simp only [Hit.mk.injEq, and_true] at *
    omega

end Part

theorem pairwise_shift {hits : List Hit} (offset : Nat)
    (h : hits.Pairwise fun a b => a.endsAt ≤ b.endsAt) :
    (hits.map (shift offset)).Pairwise fun a b => a.endsAt ≤ b.endsAt :=
  List.pairwise_map.mpr (h.imp fun hab => Nat.add_le_add_left hab offset)

end Hit

/-- An occurrence of a literal in a stream, from an offset on. -/
structure Candidate.OccursAt (literals : List Bytes) (stream : Bytes) (c : Candidate)
    (start : Nat) : Prop where
  rank : c.rank = (LiteralTable.ofLiterals literals).rank c.literal
  bytes : ∃ bytes, literals[c.literal.toNat]? = some bytes ∧ c.endsAt = start + bytes.size ∧
    bytes.standsAt stream start = true

namespace Searched

variable {literals : List Bytes} {stream : Bytes} {s : Searched} {longest first : Nat}

/-- The chunk is a part of a stream, and the seam has the bytes before the chunk
and those that literals of at most `longest` bytes need after them. -/
structure Shows (s : Searched) (stream : Bytes) (longest : Nat) : Prop where
  history_le : s.historySize ≤ s.chunkStart
  seam : PartOf stream s.seamStart s.seam
  seam_size : s.seam.size = s.historySize + min (longest - 1) s.data.size
  data : PartOf stream s.chunkStart s.data
  size_lt : stream.size < Word.bound

/-- A history and the chunk that follows it are searched for in the right bytes. -/
theorem shows_ofChunk {history data : Bytes} {chunkStart : Nat}
    (hle : history.size ≤ chunkStart) (hhistory : PartOf stream (chunkStart - history.size) history)
    (hdata : PartOf stream chunkStart data) (hsize : stream.size < Word.bound) :
    (ofChunk longest history data chunkStart).Shows stream longest := by
  have hclip := slice_clip data 0 (longest - 1)
  rw [Nat.sub_zero] at hclip
  have hstart := hdata.slice 0 (min (longest - 1) data.size) (by omega)
  rw [← hclip, Nat.add_zero] at hstart
  have hseam := hhistory.append (by rwa [Nat.sub_add_cancel hle])
  refine ⟨hle, hseam, ?_, hdata, hsize⟩
  unfold ofChunk
  rw [ByteArray.size_append, hclip, size_slice_of_le (by omega)]

/-- The occurrences that start in a range of offsets. -/
theorem mem_seamHits (h : Searchable literals) (hlong : ∀ bytes ∈ literals, bytes.size ≤ longest)
    (hs : s.Shows stream longest) {hit : Hit} :
    hit ∈ s.seamHits (LiteralTable.ofLiterals literals) first ↔
      ∃ start, hit.StandsAt literals stream start ∧ s.seamStart ≤ start ∧
        start < s.chunkStart ∧ first ≤ hit.endsAt ∧
        hit.endsAt ≤ s.chunkStart + s.data.size := by
  have hstart : s.seamStart + s.historySize = s.chunkStart := by
    have := hs.history_le
    unfold seamStart
    omega
  have hseam := hs.seam_size
  unfold seamHits
  rw [List.mem_map]
  constructor
  · rintro ⟨hit, hhit, rfl⟩
    obtain ⟨hhit, hbefore⟩ := List.mem_filter.mp hhit
    obtain ⟨hstands, hfirst, hend⟩ := Hit.standsAt_shift (Hit.finds_hitsFrom h _ _) hs.seam hhit
    have hbefore := of_decide_eq_true hbefore
    exact ⟨_, hstands, by omega, by omega, by omega, by omega⟩
  · rintro ⟨start, hstands, hlo, hhi, hfirst, hle⟩
    have hshort := hlong _ (Needle.bytes_mem_of_mem_ofLiterals hstands.needle)
    have hends := hstands.ends
    obtain ⟨found, hfound, hstarts, rfl⟩ :=
      Hit.exists_shift (Hit.finds_hitsFrom h _ _) hs.seam hstands hlo (by omega) hfirst
    exact ⟨found, List.mem_filter.mpr ⟨hfound, decide_eq_true (by omega)⟩, rfl⟩

theorem mem_dataHits (h : Searchable literals) (hs : s.Shows stream longest) {hit : Hit} :
    hit ∈ s.dataHits (LiteralTable.ofLiterals literals) first ↔
      ∃ start, hit.StandsAt literals stream start ∧ s.chunkStart ≤ start ∧
        first ≤ hit.endsAt ∧ hit.endsAt ≤ s.chunkStart + s.data.size := by
  unfold dataHits
  rw [List.mem_map]
  constructor
  · rintro ⟨hit, hhit, rfl⟩
    obtain ⟨hstands, hfirst, hend⟩ := Hit.standsAt_shift (Hit.finds_hitsFrom h _ _) hs.data hhit
    exact ⟨_, hstands, by omega, by omega, hend⟩
  · rintro ⟨start, hstands, hlo, hfirst, hle⟩
    obtain ⟨found, hfound, -, rfl⟩ :=
      Hit.exists_shift (Hit.finds_hitsFrom h _ _) hs.data hstands hlo hle hfirst
    exact ⟨found, hfound, rfl⟩

theorem pairwise_seamHits (h : Searchable literals) :
    (s.seamHits (LiteralTable.ofLiterals literals) first).Pairwise
      fun a b => a.endsAt ≤ b.endsAt :=
  Hit.pairwise_shift _ ((Hit.finds_hitsFrom h _ _).ordered.filter _)

theorem pairwise_dataHits (h : Searchable literals) :
    (s.dataHits (LiteralTable.ofLiterals literals) first).Pairwise
      fun a b => a.endsAt ≤ b.endsAt := Hit.pairwise_shift _ (Hit.finds_hitsFrom h _ _).ordered

/-- Ends counted from another position are as different as before. -/
theorem nodup_expand_shift {table : LiteralTable} {hits : List Hit} (start : Nat)
    (h : (hits.flatMap (Hit.expand table)).Nodup) :
    ((hits.map (Hit.shift start)).flatMap (Hit.expand table)).Nodup := by
  have heq : (hits.map (Hit.shift start)).flatMap (Hit.expand table) =
      (hits.flatMap (Hit.expand table)).map fun c => ⟨start + c.endsAt, c.literal, c.rank⟩ := by
    rw [List.flatMap_map, List.map_flatMap]
    refine List.flatMap_congr fun hit _ => ?_
    unfold Hit.expand Hit.shift
    rw [List.map_map]
    rfl
  rw [heq]
  refine h.map ?_
  intro a b hab
  cases a
  cases b
  simp only [Candidate.mk.injEq, Nat.add_left_cancel_iff] at hab
  simp only [Candidate.mk.injEq]
  exact hab

/-- The occurrences in the seam and in the chunk, in the order of their ends. -/
def hits (s : Searched) (table : LiteralTable) (first : Nat) : List Hit :=
  (s.seamHits table first).merge (s.dataHits table first) fun a b => decide (a.endsAt ≤ b.endsAt)

theorem mem_hits (h : Searchable literals) (hlong : ∀ bytes ∈ literals, bytes.size ≤ longest)
    (hs : s.Shows stream longest) {hit : Hit} :
    hit ∈ s.hits (LiteralTable.ofLiterals literals) first ↔
      ∃ start, hit.StandsAt literals stream start ∧ s.seamStart ≤ start ∧ first ≤ hit.endsAt ∧
        hit.endsAt ≤ s.chunkStart + s.data.size := by
  have hle : s.seamStart ≤ s.chunkStart := Nat.sub_le _ _
  unfold hits
  rw [List.mem_merge, mem_seamHits h hlong hs, mem_dataHits h hs]
  constructor
  · rintro (⟨start, hstands, hlo, -, hfirst, hend⟩ | ⟨start, hstands, hlo, hfirst, hend⟩)
    · exact ⟨start, hstands, hlo, hfirst, hend⟩
    · exact ⟨start, hstands, Nat.le_trans hle hlo, hfirst, hend⟩
  · rintro ⟨start, hstands, hlo, hfirst, hend⟩
    by_cases hbefore : start < s.chunkStart
    · exact Or.inl ⟨start, hstands, hlo, hbefore, hfirst, hend⟩
    · exact Or.inr ⟨start, hstands, Nat.le_of_not_lt hbefore, hfirst, hend⟩

theorem pairwise_hits (h : Searchable literals) :
    (s.hits (LiteralTable.ofLiterals literals) first).Pairwise fun a b => a.endsAt ≤ b.endsAt := by
  have hmerge : (s.hits (LiteralTable.ofLiterals literals) first).Pairwise
      fun a b => decide (a.endsAt ≤ b.endsAt) = true :=
    List.pairwise_merge
      (fun a b c hab hbc => by simp only [decide_eq_true_iff] at *; omega)
      (fun a b => by simp only [Bool.or_eq_true, decide_eq_true_iff]; omega)
      _ _ ((pairwise_seamHits h).imp decide_eq_true) ((pairwise_dataHits h).imp decide_eq_true)
  exact hmerge.imp of_decide_eq_true

/-- The candidates of the occurrences are the occurrences of the literals. -/
theorem mem_flatMap_hits (h : Searchable literals)
    (hlong : ∀ bytes ∈ literals, bytes.size ≤ longest) (hs : s.Shows stream longest)
    {c : Candidate} :
    c ∈ (s.hits (LiteralTable.ofLiterals literals) first).flatMap
        (Hit.expand (LiteralTable.ofLiterals literals)) ↔
      ∃ start, c.OccursAt literals stream start ∧ s.seamStart ≤ start ∧ first ≤ c.endsAt ∧
        c.endsAt ≤ s.chunkStart + s.data.size := by
  have hids := h.length_le
  rw [List.mem_flatMap]
  constructor
  · rintro ⟨hit, hhit, hc⟩
    obtain ⟨start, ⟨hneedle, hends, hstands⟩, hlo, hfirst, hend⟩ := (mem_hits h hlong hs).mp hhit
    obtain ⟨hcends, hid, hrank⟩ := Hit.mem_expand.mp hc
    have hbytes := Needle.mem_literals_ofLiterals hids hneedle hid
    exact ⟨start, ⟨hrank, hit.needle.bytes, hbytes, by omega, hstands⟩, hlo, by omega, by omega⟩
  · rintro ⟨start, ⟨hrank, bytes, hbytes, hends, hstands⟩, hlo, hfirst, hend⟩
    have hlt := (List.getElem?_eq_some_iff.mp hbytes).1
    obtain ⟨n, hn, hid, hnbytes⟩ := Needle.exists_needle hids hlt
    rw [hbytes, Option.some.injEq] at hnbytes
    subst hnbytes
    refine ⟨⟨c.endsAt, n⟩, (mem_hits h hlong hs).mpr ?_, Hit.mem_expand.mpr ⟨rfl, hid, hrank⟩⟩
    exact ⟨start, ⟨hn, hends, hstands⟩, hlo, hfirst, hend⟩

/-- No occurrence is found both in the seam and in the chunk. -/
theorem nodup_flatMap_hits (h : Searchable literals)
    (hlong : ∀ bytes ∈ literals, bytes.size ≤ longest) (hs : s.Shows stream longest) :
    ((s.hits (LiteralTable.ofLiterals literals) first).flatMap
      (Hit.expand (LiteralTable.ofLiterals literals))).Nodup := by
  have hids := h.length_le
  have hperm : (s.hits (LiteralTable.ofLiterals literals) first).Perm
      (s.seamHits (LiteralTable.ofLiterals literals) first ++
        s.dataHits (LiteralTable.ofLiterals literals) first) := List.merge_perm_append _
  rw [(hperm.flatMap_right _).nodup_iff, List.flatMap_append, List.nodup_append']
  refine ⟨?_, ?_, ?_⟩
  · have hseam := (Hit.finds_hitsFrom h s.seam (first - s.seamStart)).nodup_expand h
    exact nodup_expand_shift _ (hseam.sublist (List.filter_sublist.flatMap _))
  · exact nodup_expand_shift _ ((Hit.finds_hitsFrom h s.data _).nodup_expand h)
  · intro c hseam hdata
    obtain ⟨a, ha, hca⟩ := List.mem_flatMap.mp hseam
    obtain ⟨b, hb, hcb⟩ := List.mem_flatMap.mp hdata
    obtain ⟨i, ⟨hna, hea, -⟩, -, hlt, -⟩ := (mem_seamHits h hlong hs).mp ha
    obtain ⟨j, ⟨hnb, heb, -⟩, hle, -⟩ := (mem_dataHits h hs).mp hb
    obtain ⟨hcea, hida, -⟩ := Hit.mem_expand.mp hca
    obtain ⟨hceb, hidb, -⟩ := Hit.mem_expand.mp hcb
    have hbytes := Needle.mem_literals_ofLiterals hids hna hida
    rw [Needle.mem_literals_ofLiterals hids hnb hidb, Option.some.injEq] at hbytes
    rw [hbytes] at heb
    omega

/-! ## Groups of candidates -/

/-- The candidates of the occurrences that end together, with the ranks of the table. -/
def tiesOf (table : LiteralTable) (hits : List Hit) : List Candidate :=
  (hits.flatMap (Hit.expand table)).mergeSort fun a b => decide (a.rank ≤ b.rank)

theorem mem_tiesOf {table : LiteralTable} {hits : List Hit} {c : Candidate} :
    c ∈ tiesOf table hits ↔ c ∈ hits.flatMap (Hit.expand table) := List.mem_mergeSort

theorem ties_eq_tiesOf (h : Searchable literals) {hits : List Hit}
    (hneedles : ∀ hit ∈ hits, hit.needle ∈ (LiteralTable.ofLiterals literals).needles) :
    ties (LiteralTable.ofLiterals literals) hits =
      .ok (tiesOf (LiteralTable.ofLiterals literals) hits) := by
  unfold ties
  rw [Checked.mapM_eq_ok fun hit hhit => Hit.candidates_eq_expand h (hneedles hit hhit),
    Checked.ok_bind, ← List.flatMap_def]
  rfl

/-- The groups of candidates when the search has no limit. -/
def candidateGroups (s : Searched) (table : LiteralTable) (first : Nat) : List (List Candidate) :=
  (Hit.together (s.hits table first)).map (tiesOf table)

theorem groups_eq (h : Searchable literals) (hlong : ∀ bytes ∈ literals, bytes.size ≤ longest)
    (hs : s.Shows stream longest) :
    s.groups (LiteralTable.ofLiterals literals) first =
      .ok ((s.candidateGroups (LiteralTable.ofLiterals literals) first).map Except.ok) := by
  have hsize := hs.size_lt
  have hdata := hs.data.le_size
  have hends : ∀ a ∈ s.hits (LiteralTable.ofLiterals literals) first, a.endsAt < Word.bound := by
    intro a ha
    obtain ⟨start, -, -, -, hend⟩ := (mem_hits h hlong hs).mp ha
    omega
  have hneedles : ∀ a ∈ s.hits (LiteralTable.ofLiterals literals) first,
      a.needle ∈ (LiteralTable.ofLiterals literals).needles := by
    intro a ha
    obtain ⟨start, hstands, -⟩ := (mem_hits h hlong hs).mp ha
    exact hstands.needle
  have hseam := Hit.limit_eq fun a ha => hends a (List.mem_merge_left _ ha)
  have hchunk := Hit.limit_eq fun a ha => hends a (List.mem_merge_right _ ha)
  unfold groups
  rw [decide_eq_true hs.history_le, Checked.require_true, Checked.ok_bind]
  simp only [hseam, hchunk, Nat.min_self]
  refine congrArg Except.ok ?_
  unfold candidateGroups
  rw [List.map_map]
  refine List.map_congr_left fun g hg => ?_
  have hg' : ∀ a ∈ g, a ∈ s.hits (LiteralTable.ofLiterals literals) first := by
    intro a ha
    rw [← List.flatten_splitBy (fun a b : Hit => a.endsAt == b.endsAt)
      (s.hits (LiteralTable.ofLiterals literals) first)]
    exact List.mem_flatten_of_mem hg ha
  unfold group
  rw [if_pos (List.all_eq_true.mpr fun a ha => decide_eq_true (hends a (hg' a ha)))]
  exact ties_eq_tiesOf h fun a ha => hneedles a (hg' a ha)

theorem mem_candidateGroups (h : Searchable literals)
    (hlong : ∀ bytes ∈ literals, bytes.size ≤ longest) (hs : s.Shows stream longest)
    {c : Candidate} :
    c ∈ (s.candidateGroups (LiteralTable.ofLiterals literals) first).flatten ↔
      ∃ start, c.OccursAt literals stream start ∧ s.seamStart ≤ start ∧ first ≤ c.endsAt ∧
        c.endsAt ≤ s.chunkStart + s.data.size := by
  rw [← mem_flatMap_hits h hlong hs]
  unfold candidateGroups
  rw [List.mem_flatten]
  constructor
  · rintro ⟨l, hl, hc⟩
    obtain ⟨g, hg, rfl⟩ := List.mem_map.mp hl
    obtain ⟨a, ha, hca⟩ := List.mem_flatMap.mp (mem_tiesOf.mp hc)
    refine List.mem_flatMap.mpr ⟨a, ?_, hca⟩
    rw [← List.flatten_splitBy (fun a b : Hit => a.endsAt == b.endsAt) (s.hits _ first)]
    exact List.mem_flatten_of_mem hg ha
  · intro hc
    obtain ⟨a, ha, hca⟩ := List.mem_flatMap.mp hc
    rw [← List.flatten_splitBy (fun a b : Hit => a.endsAt == b.endsAt) (s.hits _ first)] at ha
    obtain ⟨g, hg, hag⟩ := List.mem_flatten.mp ha
    exact ⟨tiesOf _ g, List.mem_map_of_mem hg, mem_tiesOf.mpr (List.mem_flatMap.mpr ⟨a, hag, hca⟩)⟩

/-- What is known of the candidates of a group: they are different and end
together. -/
theorem nodup_tiesOf (h : Searchable literals) (hlong : ∀ bytes ∈ literals, bytes.size ≤ longest)
    (hs : s.Shows stream longest) {g : List Hit}
    (hg : g ∈ Hit.together (s.hits (LiteralTable.ofLiterals literals) first)) :
    (tiesOf (LiteralTable.ofLiterals literals) g).Nodup ∧
      ∀ a ∈ tiesOf (LiteralTable.ofLiterals literals) g,
        ∀ b ∈ tiesOf (LiteralTable.ofLiterals literals) g, a.endsAt = b.endsAt := by
  constructor
  · have hsub : g.Sublist (s.hits (LiteralTable.ofLiterals literals) first) := by
      have hg' := List.sublist_flatten_of_mem hg
      rwa [show (Hit.together (s.hits (LiteralTable.ofLiterals literals) first)).flatten =
        s.hits (LiteralTable.ofLiterals literals) first from List.flatten_splitBy _ _] at hg'
    exact (List.mergeSort_perm _ _).nodup_iff.mpr
      ((nodup_flatMap_hits h hlong hs).sublist (hsub.flatMap _))
  · intro a ha b hb
    obtain ⟨x, hx, hax⟩ := List.mem_flatMap.mp (mem_tiesOf.mp ha)
    obtain ⟨y, hy, hby⟩ := List.mem_flatMap.mp (mem_tiesOf.mp hb)
    rw [(Hit.mem_expand.mp hax).1, (Hit.mem_expand.mp hby).1]
    exact Hit.endsAt_eq_of_mem_together hg x hx y hy

/-- A candidate of a group has the rank of a literal. -/
theorem rank_of_mem_tiesOf (h : Searchable literals)
    (hlong : ∀ bytes ∈ literals, bytes.size ≤ longest) (hs : s.Shows stream longest)
    {g : List Hit} (hg : g ∈ Hit.together (s.hits (LiteralTable.ofLiterals literals) first))
    {c : Candidate} (hc : c ∈ tiesOf (LiteralTable.ofLiterals literals) g) :
    c.literal.toNat < literals.length ∧
      c.rank = (LiteralTable.ofLiterals literals).rank c.literal := by
  have hmem := (mem_candidateGroups h hlong hs).mp
    (List.mem_flatten_of_mem (List.mem_map_of_mem hg) hc)
  obtain ⟨start, ⟨hrank, bytes, hbytes, -, -⟩, -, -, -⟩ := hmem
  exact ⟨(List.getElem?_eq_some_iff.mp hbytes).1, hrank⟩

/-- No more candidates end together than there are literals. -/
theorem length_le_of_mem_candidateGroups (h : Searchable literals)
    (hlong : ∀ bytes ∈ literals, bytes.size ≤ longest) (hs : s.Shows stream longest)
    {l : List Candidate}
    (hl : l ∈ s.candidateGroups (LiteralTable.ofLiterals literals) first) :
    l.length ≤ literals.length := by
  obtain ⟨g, hg, rfl⟩ := List.mem_map.mp hl
  obtain ⟨hnodup, hends⟩ := nodup_tiesOf h hlong hs hg
  have hids : ((tiesOf (LiteralTable.ofLiterals literals) g).map fun c => c.literal.toNat).Nodup := by
    refine hnodup.map_on ?_
    intro a ha b hb hab
    have hid : a.literal = b.literal := by
      rw [← Id.ofNat_toNat a.literal, hab, Id.ofNat_toNat]
    have hrank := (rank_of_mem_tiesOf h hlong hs hg ha).2
    rw [hid, ← (rank_of_mem_tiesOf h hlong hs hg hb).2] at hrank
    have hend := hends a ha b hb
    cases a
    cases b
    simp_all
  have hrange : ((tiesOf (LiteralTable.ofLiterals literals) g).map fun c => c.literal.toNat) ⊆
      List.range literals.length := by
    intro i hi
    obtain ⟨c, hc, rfl⟩ := List.mem_map.mp hi
    exact List.mem_range.mpr (rank_of_mem_tiesOf h hlong hs hg hc).1
  have hlength := (hids.subperm hrange).length_le
  rwa [List.length_map, List.length_range] at hlength

/-- The candidates are in the order of their keys, which are all different. -/
theorem pairwise_candidateGroups (h : Searchable literals)
    (hlong : ∀ bytes ∈ literals, bytes.size ≤ longest) (hs : s.Shows stream longest) :
    (s.candidateGroups (LiteralTable.ofLiterals literals) first).flatten.Pairwise
      fun a b => a.key < b.key := by
  unfold candidateGroups
  rw [List.pairwise_flatten]
  constructor
  · intro l hl
    obtain ⟨g, hg, rfl⟩ := List.mem_map.mp hl
    obtain ⟨hnodup, hends⟩ := nodup_tiesOf h hlong hs hg
    have hsorted : (tiesOf (LiteralTable.ofLiterals literals) g).Pairwise
        fun a b => decide (a.rank ≤ b.rank) = true :=
      List.pairwise_mergeSort (fun a b c hab hbc => by simp only [decide_eq_true_iff] at *; omega)
        (fun a b => by simp only [Bool.or_eq_true, decide_eq_true_iff]; omega) _
    refine (hsorted.and hnodup).imp_of_mem ?_
    rintro a b ha hb ⟨hle, hne⟩
    have hend := hends a ha b hb
    obtain ⟨hlta, hra⟩ := rank_of_mem_tiesOf h hlong hs hg ha
    obtain ⟨hltb, hrb⟩ := rank_of_mem_tiesOf h hlong hs hg hb
    refine Or.inr ⟨hend, Nat.lt_of_le_of_ne (of_decide_eq_true hle) ?_⟩
    intro hrank
    have hid := LiteralTable.rank_inj hlta hltb (by rw [← hra, ← hrb]; exact hrank)
    apply hne
    cases a
    cases b
    simp_all [Candidate.key]
  · rw [List.pairwise_map]
    refine (Hit.pairwise_together (pairwise_hits h)).imp ?_
    intro g g' hbefore a ha b hb
    obtain ⟨x, hx, hax⟩ := List.mem_flatMap.mp (mem_tiesOf.mp ha)
    obtain ⟨y, hy, hby⟩ := List.mem_flatMap.mp (mem_tiesOf.mp hb)
    refine Or.inl ?_
    have hlt := hbefore x hx y hy
    rwa [← (Hit.mem_expand.mp hax).1, ← (Hit.mem_expand.mp hby).1] at hlt

end Searched

end StreamMatch
