-- From one candidate to the next one: between two of them nothing happens in the
-- stream, and after each one the matches of its literal are dealt with.
import StreamMatch.Proofs.Literal.Occurrences
import StreamMatch.Proofs.Scan.Flush

namespace StreamMatch.Scan

open Bytes

variable {s : Scan} {stream base : Bytes} {resume upto upto' : Key} {past : List Event} {c : Core}
  {reported : List RawMatch} {states : Repeat → RunState} {cand : Candidate} {l : Literal}
  {m : RawMatch} {start : Nat}

/-- A candidate that occurs in the stream. -/
def Occurs (s : Scan) (stream : Bytes) (cand : Candidate) (start : Nat) : Prop :=
  cand.OccursAt s.program.literalBytes stream start

theorem literalBytes_getElem? {p : Program} {i : Nat} :
    p.literalBytes[i]? = p.literals[i]?.map Literal.bytes := by
  unfold Program.literalBytes
  rw [List.getElem?_map, Array.getElem?_toList]

/-- What a candidate stands for. -/
theorem Occurs.spec (hs : s.Over stream resume) (h : s.Occurs stream cand start) :
    ∃ l, s.program.literals[cand.literal.toNat]? = some l ∧
      cand.endsAt = start + l.bytes.size ∧ l.bytes.standsAt stream start = true ∧
      cand.key = ⟨start + l.bytes.size, s.program.table.rank (.ofNat cand.literal.toNat)⟩ := by
  obtain ⟨hrank, bytes, hbytes, hend, hstands⟩ := h
  rw [literalBytes_getElem?] at hbytes
  obtain ⟨l, hl, rfl⟩ := Option.map_eq_some_iff.mp hbytes
  refine ⟨l, hl, hend, hstands, ?_⟩
  rw [Candidate.key, hend, hrank, Id.ofNat_toNat, hs.sound.table_eq]

/-- An occurrence of a literal is a candidate. -/
theorem exists_occurs (hs : s.Over stream resume) {i : Nat} (hl : s.program.literals[i]? = some l)
    (hstands : l.bytes.standsAt stream start = true) :
    ∃ cand, s.Occurs stream cand start ∧
      cand.key = ⟨start + l.bytes.size, s.program.table.rank (.ofNat i)⟩ := by
  have hi := hs.sound.toNat_ofNat (Array.getElem?_eq_some_iff.mp hl).1
  refine ⟨⟨start + l.bytes.size, .ofNat i, s.program.table.rank (.ofNat i)⟩, ⟨?_, ?_⟩, rfl⟩
  · rw [hs.sound.table_eq]
  · refine ⟨l.bytes, ?_, rfl, hstands⟩
    rw [hi, literalBytes_getElem?, hl]
    rfl

/-- The first byte of a run is a candidate. -/
theorem exists_occurs_of_run (hs : s.Over stream resume) {r : Repeat} (hr : r ∈ s.program.repeats)
    {first stop : Nat} (hrun : r.allowed.IsRun stream first stop) :
    ∃ cand start, s.Occurs stream cand start ∧ cand.key = r.keyAt stream (first + 1) := by
  have hlt := hrun.lt
  have hle := hrun.le_size
  have hb : r.allowed.contains (byteAt stream (first + 1 - 1)) = true :=
    hrun.inside first (Nat.le_refl _) hlt
  obtain ⟨i, hi, hkey⟩ := hs.sound.exists_trigger hr hb
  have hstands : (Program.trigger (byteAt stream (first + 1 - 1)) r.id).bytes.standsAt stream
      first = true := by
    rw [standsAt_iff_byteAt]
    refine ⟨?_, ?_⟩
    · have hone : (Program.trigger (byteAt stream (first + 1 - 1)) r.id).bytes.size = 1 := rfl
      omega
    · intro j hj
      obtain rfl : j = 0 := Nat.lt_one_iff.mp hj
      rfl
  obtain ⟨cand, hcand, hck⟩ := exists_occurs hs hi hstands
  exact ⟨cand, first, hcand, hck.trans hkey.symm⟩

theorem exists_occurs_of_match (hs : s.Over stream resume)
    (hm : m ∈ s.program.literalMatches stream) :
    ∃ cand start, s.Occurs stream cand start ∧ cand.key = m.key := by
  obtain ⟨i, l, start, hl, hm⟩ := Program.mem_literalMatches.mp hm
  obtain ⟨-, hstands, -, -, hkey⟩ := Program.literalMatch?_eq_some.mp hm
  obtain ⟨cand, hcand, hck⟩ := exists_occurs hs hl hstands
  exact ⟨cand, start, hcand, hck.trans hkey.symm⟩

/-- Without a candidate between two keys, a point at the first key is one at the
second key. -/
theorem Point.advance (hs : s.Over stream resume)
    (h : s.Point stream base past upto c reported states) (hle : upto ≤ upto')
    (hupto : upto' ≤ ⟨s.input.stop + 1, 0⟩)
    (hnone : ∀ cand start, s.Occurs stream cand start → upto ≤ cand.key → upto' ≤ cand.key) :
    s.Point stream base past upto' c reported states := by
  refine h.raise hle hupto ?_ ?_
  · intro r hr first stop hf
    refine ⟨hf.isRun, lt_of_not_ge fun hge => ?_⟩
    obtain ⟨cand, start, hcand, hkey⟩ := exists_occurs_of_run hs hr hf.isRun
    rw [← hkey] at hge
    have hcontra := hnone cand start hcand hge
    rw [hkey] at hcontra
    exact absurd hf.trigger (not_lt_of_ge hcontra)
  · intro m hm hlt
    refine lt_of_not_ge fun hge => ?_
    obtain ⟨cand, start, hcand, hkey⟩ := exists_occurs_of_match hs hm
    rw [← hkey] at hge
    have hcontra := hnone cand start hcand hge
    rw [hkey] at hcontra
    exact absurd hlt (not_lt_of_ge hcontra)

/-! ## Candidates of a pattern -/

/-- A candidate for a pattern does not start a run. -/
theorem not_trigger (hs : s.Over stream resume) (h : s.Occurs stream cand start)
    (hl : s.program.literals[cand.literal.toNat]? = some l) {id : PatternId}
    (ht : l.target = .pattern id) {r : Repeat} (hr : r ∈ s.program.repeats) {first stop : Nat}
    (hf : r.Finds stream cand.key.next first stop) : r.Finds stream cand.key first stop := by
  refine ⟨hf.isRun, lt_of_le_of_ne (Key.lt_next_iff.mp hf.trigger) fun heq => ?_⟩
  have hb : r.allowed.contains (byteAt stream (first + 1 - 1)) = true :=
    hf.isRun.inside first (Nat.le_refl _) hf.isRun.lt
  obtain ⟨l', hl', -, -, hkey⟩ := h.spec hs
  obtain ⟨i, hi, hkey'⟩ := hs.sound.exists_trigger hr hb
  rw [hl, Option.some.injEq] at hl'
  subst hl'
  rw [hkey, hkey', Key.mk.injEq] at heq
  obtain rfl := hs.sound.rank_inj (Array.getElem?_eq_some_iff.mp hi).1
    (Array.getElem?_eq_some_iff.mp hl).1 heq.2
  rw [hl, Option.some.injEq] at hi
  rw [hi] at ht
  cases ht

/-- A match of a literal with the key of a candidate is the one of the candidate. -/
theorem match_of_key_eq (hs : s.Over stream resume) (h : s.Occurs stream cand start)
    (hl : s.program.literals[cand.literal.toNat]? = some l)
    (hm : m ∈ s.program.literalMatches stream) (hkey : m.key = cand.key) :
    s.program.literalMatch? stream cand.literal.toNat l start = some m := by
  obtain ⟨l', hl', -, -, hck⟩ := h.spec hs
  obtain ⟨i, l'', start', hl'', hm⟩ := Program.mem_literalMatches.mp hm
  obtain ⟨-, -, -, -, hmk⟩ := Program.literalMatch?_eq_some.mp hm
  rw [hl, Option.some.injEq] at hl'
  subst hl'
  rw [hmk, hck, Key.mk.injEq] at hkey
  obtain rfl := hs.sound.rank_inj (Array.getElem?_eq_some_iff.mp hl'').1
    (Array.getElem?_eq_some_iff.mp hl).1 hkey.2
  rw [hl, Option.some.injEq] at hl''
  subst hl''
  obtain rfl : start' = start := by omega
  exact hm

theorem next_le (hend : cand.endsAt ≤ s.input.stop) :
    cand.key.next ≤ ⟨s.input.stop + 1, 0⟩ := by
  simp only [Key.le_def, Key.next, Candidate.key]
  omega

/-- A candidate that is not a match is passed. -/
theorem Point.pass (hs : s.Over stream resume) (ho : s.Occurs stream cand start)
    (h : s.Point stream base past cand.key c reported states)
    (hl : s.program.literals[cand.literal.toNat]? = some l) {id : PatternId}
    (ht : l.target = .pattern id) (hend : cand.endsAt ≤ s.input.stop)
    (hnone : s.program.literalMatch? stream cand.literal.toNat l start = none) :
    s.Point stream base past cand.key.next c reported states := by
  refine h.raise (le_of_lt (Key.lt_next _)) (next_le hend) ?_ ?_
  · exact fun r hr first stop hf => not_trigger hs ho hl ht hr hf
  · intro m hm hlt
    refine lt_of_le_of_ne (Key.lt_next_iff.mp hlt) fun heq => ?_
    rw [match_of_key_eq hs ho hl hm heq] at hnone
    cases hnone

/-- A candidate that is a match is the next match of the stream, when those
before it were reported. -/
theorem Point.next_of_candidate (hs : s.Over stream resume) (ho : s.Occurs stream cand start)
    (h : s.Point stream base past cand.key c reported states)
    (hl : s.program.literals[cand.literal.toNat]? = some l)
    (hwaits : s.Waits states cand.key)
    (hopen : ∀ r ∈ s.program.repeats, 0 < (states r).length →
      ∀ stop, s.input.stop ≤ stop → cand.key ≤ r.keyAt stream stop)
    (hm : s.program.literalMatch? stream cand.literal.toNat l start = some m) :
    m.key = cand.key ∧ m ∈ s.program.literalMatches stream ∧
      reported ++ [m] <+: s.program.rawMatches stream := by
  obtain ⟨l', hl', -, -, hck⟩ := ho.spec hs
  rw [hl, Option.some.injEq] at hl'
  subst hl'
  have hkey : m.key = cand.key := by
    obtain ⟨-, -, -, -, hmk⟩ := Program.literalMatch?_eq_some.mp hm
    rw [hmk, hck]
  have hmem : m ∈ s.program.literalMatches stream :=
    Program.mem_literalMatches.mpr ⟨_, l, start, hl, hm⟩
  refine ⟨hkey, hmem, Program.append_prefix hs.sound.pairwise_rawMatches h.ordered
    (Program.mem_rawMatches.mpr (Or.inl hmem)) ?_ ?_⟩
  · rw [h.literals m hmem, hkey]
    exact lt_irrefl _
  · intro a ha hna
    rw [hkey]
    rcases Program.mem_rawMatches.mp ha with hlit | hin
    · rw [h.literals a hlit] at hna
      exact le_of_not_gt hna
    · obtain ⟨r, hr, first, stop, hrun, haccept, rfl⟩ := Program.mem_runMatches.mp hin
      rcases (h.found r hr).unreported hrun haccept hna with hp | ⟨-, hpos, hstop⟩ | hupto
      · exact hwaits r hr _ hp
      · exact hopen r hr hpos stop hstop
      · exact le_trans hupto (Repeat.trigger_le hrun)

/-- A candidate that is a match is passed when the match was reported. -/
theorem Point.pass_match (hs : s.Over stream resume) (ho : s.Occurs stream cand start)
    (h : s.Point stream base past cand.key c reported states)
    (hl : s.program.literals[cand.literal.toNat]? = some l) {id : PatternId}
    (ht : l.target = .pattern id) (hend : cand.endsAt ≤ s.input.stop)
    (hkey : m.key = cand.key) (hmem : m ∈ s.program.literalMatches stream)
    (hpre : reported ++ [m] <+: s.program.rawMatches stream) {c' : Core}
    (hk : s.program.Keeps base c'.region states
      (s.program.entryAfter (s.program.kept (reported ++ [m]))))
    (htells : s.Tells past c' (reported ++ [m]) .proceed) :
    s.Point stream base past cand.key.next c' (reported ++ [m]) states := by
  refine ⟨hk, ?_, hpre, ?_, ?_, htells⟩
  · intro r hr
    refine ((h.found r hr).raise (le_of_lt (Key.lt_next _)) (next_le hend)
      fun first stop hf => not_trigger hs ho hl ht hr hf).append_other ?_
    rintro first stop hrun rfl
    have hlt := hrun.lt
    exact hs.sound.literal_key_ne hmem hr (hrun.inside _ (by omega) (by omega)) rfl
  · intro a ha
    rcases List.mem_append.mp ha with ha | ha
    · exact lt_trans (h.below a ha) (Key.lt_next _)
    · rw [List.mem_singleton.mp ha, hkey]
      exact Key.lt_next _
  · intro a ha
    rw [List.mem_append, List.mem_singleton, h.literals a ha, Key.lt_next_iff]
    constructor
    · rintro (hlt | rfl)
      · exact le_of_lt hlt
      · exact le_of_eq hkey
    · intro hle
      rcases lt_or_eq_of_le hle with hlt | heq
      · exact Or.inl hlt
      · exact Or.inr (hs.sound.literal_key_inj ha hmem (heq.trans hkey.symm))

end StreamMatch.Scan
