-- A chunk is searched in two parts, the seam and the chunk itself, and still what
-- is found is what one search of the history and the chunk together would find:
-- each occurrence of each literal, once, in the order of their keys.
import StreamMatch.Proofs.Key
import StreamMatch.Proofs.Literal.Occurrences

namespace StreamMatch

open Bytes

/-! ## The occurrences in a text -/

namespace Candidate

/-- The positions at which a needle occurs in a text. -/
def placesIn (needle text : Bytes) : List Nat :=
  (List.range (text.size + 1)).filter fun start => needle.standsAt text start

/-- The occurrences of all the literals in a text whose first byte has the offset
`base`. The rank of a literal is how many literals go before it. -/
def occurrencesIn (literals : List Bytes) (text : Bytes) (base : Nat) : List Candidate :=
  literals.zipIdx.flatMap fun (needle, i) => (placesIn needle text).map fun start =>
    ⟨base + (start + needle.size), .ofNat i, LiteralTable.placeOf literals i⟩

variable {literals : List Bytes} {text : Bytes} {base : Nat} {c : Candidate}

theorem mem_placesIn {needle : Bytes} {start : Nat} :
    start ∈ placesIn needle text ↔ needle.standsAt text start = true := by
  unfold placesIn
  rw [List.mem_filter, List.mem_range]
  constructor
  · exact fun h => h.2
  · intro h
    have hle := (standsAt_iff.mp h).1
    exact ⟨by omega, h⟩

/-- What is known of a position of a list of literals. -/
theorem toNat_of_mem_zipIdx (h : literals.length ≤ 0x100000000) {p : Bytes × Nat}
    (hp : p ∈ literals.zipIdx) :
    literals[p.2]? = some p.1 ∧ (.ofNat p.2 : LiteralId).toNat = p.2 := by
  have hget := List.mem_zipIdx_iff_getElem?.mp hp
  obtain ⟨hlt, -⟩ := List.getElem?_eq_some_iff.mp hget
  exact ⟨hget, Id.toNat_ofNat_of_lt (by omega)⟩

theorem mem_occurrencesIn (h : literals.length ≤ 0x100000000) :
    c ∈ occurrencesIn literals text base ↔
      c.rank = LiteralTable.placeOf literals c.literal.toNat ∧
        ∃ needle start, literals[c.literal.toNat]? = some needle ∧
          c.endsAt = base + (start + needle.size) ∧ needle.standsAt text start = true := by
  unfold occurrencesIn
  rw [List.mem_flatMap]
  constructor
  · rintro ⟨p, hp, hc⟩
    obtain ⟨start, hstart, rfl⟩ := List.mem_map.mp hc
    obtain ⟨hget, hid⟩ := toNat_of_mem_zipIdx h hp
    simp only [hid]
    exact ⟨trivial, p.1, start, hget, rfl, mem_placesIn.mp hstart⟩
  · rintro ⟨hrank, needle, start, hget, hends, hstands⟩
    refine ⟨(needle, c.literal.toNat), List.mem_zipIdx_iff_getElem?.mpr hget, ?_⟩
    refine List.mem_map.mpr ⟨start, mem_placesIn.mpr hstands, ?_⟩
    simp only [Id.ofNat_toNat, ← hends, ← hrank]

theorem nodup_occurrencesIn (h : literals.length ≤ 0x100000000) :
    (occurrencesIn literals text base).Nodup := by
  unfold occurrencesIn
  rw [List.nodup_flatMap]
  constructor
  · rintro p -
    refine (List.nodup_range.filter _).map ?_
    intro start start' heq
    have hends := congrArg Candidate.endsAt heq
    simp only at hends
    omega
  · have hdiffer : literals.zipIdx.Pairwise fun p q => p.2 ≠ q.2 := by
      rw [← List.pairwise_map, List.zipIdx_map_snd]
      exact List.nodup_range' 1
    refine hdiffer.imp_of_mem ?_
    intro p q hp hq hne c hcp hcq
    obtain ⟨start, -, rfl⟩ := List.mem_map.mp hcp
    obtain ⟨start', -, heq⟩ := List.mem_map.mp hcq
    have hid := congrArg (fun c => c.literal.toNat) heq
    simp only [(toNat_of_mem_zipIdx h hp).2, (toNat_of_mem_zipIdx h hq).2] at hid
    exact hne hid.symm

/-- The occurrences in a part of a stream are those of the stream that are within
the part. -/
theorem mem_occurrencesIn_iff_occursAt (h : literals.length ≤ 0x100000000) {stream : Bytes}
    (hpart : PartOf stream base text) :
    c ∈ occurrencesIn literals text base ↔
      ∃ start, c.OccursAt literals stream start ∧ base ≤ start ∧ c.endsAt ≤ base + text.size := by
  rw [mem_occurrencesIn h]
  constructor
  · rintro ⟨hrank, needle, start, hget, hends, hstands⟩
    have hle := (standsAt_iff.mp hstands).1
    have hlt := (List.getElem?_eq_some_iff.mp hget).1
    rw [← LiteralTable.rank_eq_placeOf hlt] at hrank
    refine ⟨base + start, ⟨hrank, needle, hget, ?_, (hpart.standsAt_iff hle).mp hstands⟩, ?_, ?_⟩
    · omega
    · omega
    · omega
  · rintro ⟨start, ⟨hrank, needle, hget, hends, hstands⟩, hbase, hle⟩
    have hlt := (List.getElem?_eq_some_iff.mp hget).1
    rw [LiteralTable.rank_eq_placeOf hlt] at hrank
    obtain ⟨pos, rfl⟩ := Nat.exists_eq_add_of_le hbase
    exact ⟨hrank, needle, pos, hget, by omega, (hpart.standsAt_iff (by omega)).mpr hstands⟩

end Candidate

/-! ## What is found in a chunk -/

namespace Searched

variable {literals : List Bytes} {stream : Bytes} {s : Searched} {longest : Nat} {resume : Key}

theorem candidates_eq (h : Searchable literals) (hlong : ∀ bytes ∈ literals, bytes.size ≤ longest)
    (hs : s.Shows stream longest) (resume : Key) :
    s.candidates (LiteralTable.ofLiterals literals) resume =
      .ok ((s.candidateGroups (LiteralTable.ofLiterals literals) resume.endsAt).flatten.filter
        fun c => decide (resume ≤ c.key)) := by
  unfold candidates
  rw [groups_eq h hlong hs, Checked.ok_bind, List.mapM_map,
    Checked.mapM_eq_ok (f := id ∘ Except.ok) (g := id) fun _ _ => rfl, List.map_id, Checked.ok_bind]
  rfl

/-- The candidates that are not before the resume key are occurrences in the bytes from
the start of the seam to the end of the chunk. -/
theorem candidates_perm (h : Searchable literals)
    (hlong : ∀ bytes ∈ literals, bytes.size ≤ longest) (hs : s.Shows stream longest) {text : Bytes}
    (htext : PartOf stream s.seamStart text)
    (hend : s.seamStart + text.size = s.chunkStart + s.data.size) (resume : Key) :
    ((s.candidateGroups (LiteralTable.ofLiterals literals) resume.endsAt).flatten.filter
      fun c => decide (resume ≤ c.key)).Perm
        ((Candidate.occurrencesIn literals text s.seamStart).filter
          fun c => decide (resume ≤ c.key)) := by
  have hnodup : (s.candidateGroups (LiteralTable.ofLiterals literals)
      resume.endsAt).flatten.Nodup := by
    refine (pairwise_candidateGroups h hlong hs).imp ?_
    intro a b hlt heq
    rw [heq] at hlt
    exact Key.lt_irrefl _ hlt
  refine (List.perm_ext_iff_of_nodup (hnodup.filter _)
    ((Candidate.nodup_occurrencesIn h.length_le).filter _)).mpr fun c => ?_
  rw [List.mem_filter, List.mem_filter, mem_candidateGroups h hlong hs,
    Candidate.mem_occurrencesIn_iff_occursAt h.length_le htext, decide_eq_true_iff, hend]
  constructor
  · rintro ⟨⟨start, hoccurs, hlo, -, hle⟩, hresume⟩
    exact ⟨⟨start, hoccurs, hlo, hle⟩, hresume⟩
  · rintro ⟨⟨start, hoccurs, hlo, hle⟩, hresume⟩
    exact ⟨⟨start, hoccurs, hlo, Key.endsAt_le hresume, hle⟩, hresume⟩

/-- The candidates of a chunk are the occurrences of the literals in the history and
the chunk together that are not before the resume key, each one once and in the order
of their keys. The tie buffer holds one group of them at a time, and no group is larger
than the table. -/
theorem candidates_across_seam (h : Searchable literals) {history data : Bytes} {chunkStart : Nat}
    (hhistory : history.size ≤ chunkStart) (hend : chunkStart + data.size < Word.bound)
    (resume : Key) :
    let table := LiteralTable.ofLiterals literals
    let s := ofChunk table.longest history data chunkStart
    ∃ (ties : List (List Candidate)) (cs : List Candidate),
      s.groups table resume.endsAt = .ok (ties.map .ok) ∧
      (∀ group ∈ ties, group.length ≤ literals.length) ∧
      s.candidates table resume = .ok cs ∧
      cs.Pairwise (fun a b => a.key < b.key) ∧
      cs.Perm ((Candidate.occurrencesIn literals (history ++ data)
        (chunkStart - history.size)).filter fun c => decide (resume ≤ c.key)) := by
  intro table s
  obtain ⟨stream, hsize, hbefore, hafter⟩ := PartOf.exists_stream hhistory data
  have hlong : ∀ bytes ∈ literals, bytes.size ≤ table.longest :=
    fun _ => LiteralTable.size_le_longest
  have hs : s.Shows stream table.longest :=
    shows_ofChunk hhistory hbefore hafter (by rwa [hsize])
  have htext : PartOf stream s.seamStart (history ++ data) :=
    hbefore.append (by rwa [Nat.sub_add_cancel hhistory])
  have hends : s.seamStart + (history ++ data).size = chunkStart + data.size := by
    rw [ByteArray.size_append]
    change chunkStart - history.size + (history.size + data.size) = chunkStart + data.size
    omega
  refine ⟨_, _, groups_eq h hlong hs, ?_, candidates_eq h hlong hs resume, ?_,
    candidates_perm h hlong hs htext hends resume⟩
  · exact fun group hgroup => length_le_of_mem_candidateGroups h hlong hs hgroup
  · exact (pairwise_candidateGroups h hlong hs).filter _

/-- Literals that end together, two of them with the same bytes. -/
def tiedLiterals : List Bytes :=
  [.ofList [97, 98], .ofList [98], .ofList [97, 98, 99], .ofList [98]]

/-- The chunk `bcab` is searched after the history `a`, from a key between those of two
literals that end together. -/
theorem tiedLiterals_candidates :
    Searchable tiedLiterals ∧
    (ofChunk (LiteralTable.ofLiterals tiedLiterals).longest (.ofList [97])
        (.ofList [98, 99, 97, 98]) 5).candidates (LiteralTable.ofLiterals tiedLiterals) ⟨6, 2⟩ =
      .ok [⟨6, .ofNat 1, 2⟩, ⟨6, .ofNat 3, 3⟩, ⟨7, .ofNat 2, 0⟩, ⟨9, .ofNat 0, 1⟩, ⟨9, .ofNat 1, 2⟩,
        ⟨9, .ofNat 3, 3⟩] := by
  have h : Searchable tiedLiterals := ⟨by decide, by decide⟩
  obtain ⟨-, cs, -, -, hcs, hordered, hperm⟩ := candidates_across_seam h
    (show (ofList [97]).size ≤ 5 by decide)
    (show 5 + (ofList [98, 99, 97, 98]).size < Word.bound by decide) ⟨6, 2⟩
  refine ⟨h, hcs.trans (congrArg Except.ok ?_)⟩
  refine List.Perm.eq_of_pairwise ?_ hordered (by decide) (hperm.trans (by decide))
  exact fun a b _ _ hab hba => absurd (Key.lt_trans hab hba) (Key.lt_irrefl _)

end Searched

end StreamMatch
