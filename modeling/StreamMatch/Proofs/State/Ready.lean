-- The states that a stream can be in between two chunks. They are accepted when
-- they are checked, and a scan can go on from each of them.
import StreamMatch.Proofs.Scan.Report
import StreamMatch.Proofs.State.Accepted

namespace StreamMatch

open Bytes

namespace Program

/-- The state of a stream after `n` bytes, when the candidates before the key
`resume` were processed. The events so far are those of the reported matches. -/
structure Ready (p : Program) (stream : Bytes) (n : Nat) (past : List Event) (region : Bytes)
    (resume : Key) (reported : List RawMatch) (states : Repeat → RunState) : Prop where
  le_size : n ≤ stream.size
  owns : p.Owns region 0
  offset_eq : StreamState.offsetOf region = n
  resume_eq : StreamState.resumeOf region = resume
  historyLength_eq : region.readNumber 30 2 = min p.layout.historySize n
  history : PartOf stream (n - min p.layout.historySize n) (StreamState.historyOf region)
  resume_le : resume ≤ ⟨n + 1, 0⟩
  lt_resume : n < resume.endsAt + max p.lookahead 1
  keeps : p.Keeps region region states (p.entryAfter (p.kept reported))
  found : ∀ r ∈ p.repeats, r.Found stream n false resume reported (states r)
  waits : ∀ r ∈ p.repeats, ∀ m, (states r).pending = some m → resume ≤ m.key
  ordered : reported <+: p.rawMatches stream
  below : ∀ m ∈ reported, m.key < resume
  literals : ∀ m ∈ p.literalMatches stream, m ∈ reported ↔ m.key < resume
  events_eq : past = p.eventsOf reported

variable {p : Program} {stream region : Bytes} {n : Nat} {past : List Event} {resume : Key}
  {reported : List RawMatch} {states : Repeat → RunState}

namespace Ready

theorem paused (h : p.Ready stream n past region resume reported states) : p.Paused n region :=
  ⟨h.owns, h.offset_eq, h.historyLength_eq⟩

/-- A match is left for the next chunk only if it can need bytes that follow. -/
theorem le_resume (h : p.Ready stream n past region resume reported states) :
    n ≤ resume.endsAt + p.lookahead := by
  have hlt := h.lt_resume
  omega

/-- A match that was reported does not end after the bytes seen. -/
theorem endsAt_le (h : p.Ready stream n past region resume reported states) {m : RawMatch}
    (hm : m ∈ reported) : m.key.endsAt ≤ n := by
  have hlt := lt_of_lt_of_le (h.below m hm) h.resume_le
  simp only [Key.lt_def] at hlt
  omega

/-- A match that ends before the last byte seen was reported if it goes before the
resume key. -/
theorem mem_reported (h : p.Ready stream n past region resume reported states) {m : RawMatch}
    (hm : m ∈ p.rawMatches stream) (hend : m.key.endsAt < n) (hlt : m.key < resume) :
    m ∈ reported := by
  rcases mem_rawMatches.mp hm with hlit | hin
  · exact (h.literals m hlit).mpr hlt
  · obtain ⟨r, hr, first, stop, hrun, ha, rfl⟩ := mem_runMatches.mp hin
    refine Decidable.byContradiction fun hnot => ?_
    rcases (h.found r hr).unreported hrun ha hnot with hp | ⟨-, -, hstop⟩ | hupto
    · exact absurd hlt (not_lt_of_ge (h.waits r hr _ hp))
    · exact absurd hend (Nat.not_lt_of_le hstop)
    · exact absurd hlt (not_lt_of_ge (le_trans hupto (Repeat.trigger_le hrun)))

theorem lastEnd_le (h : p.Ready stream n past region resume reported states) {i last : Nat}
    (hi : i < p.patterns.size)
    (hlast : (StreamState.entryOf p.layout region i).lastEnd = some last) : last ≤ n := by
  rw [h.keeps.entry i hi] at hlast
  unfold entryAfter at hlast
  obtain ⟨m, hm, rfl⟩ := Option.map_eq_some_iff.mp hlast
  have hkept := List.mem_of_mem_filter (List.mem_of_getLast? hm)
  exact h.endsAt_le ((kept_sublist reported).subset hkept)

/-- Every scan succeeds from a state that a stream can be in. -/
theorem resumes (h : p.Ready stream n past region resume reported states) :
    p.Resumes n region states (p.entryAfter (p.kept reported)) := by
  refine ⟨h.paused, ?_, h.keeps, fun r hr => (h.found r hr).fits, fun i hi => ?_⟩
  · rw [h.resume_eq]
    exact Key.endsAt_le h.resume_le
  · rw [← h.keeps.entry i hi]
    exact fun last => h.lastEnd_le hi

/-- The state of a stream that was not stopped is accepted. -/
theorem validate (hp : p.Sound) (hsize : stream.size < 0x4000000000000000)
    (h : p.Ready stream n past region resume reported states) :
    StreamState.validate p.layout p.repeats p.checksum region = .ok () :=
  (h.resumes.accepted hp (Nat.lt_of_le_of_lt h.le_size hsize)).validate hp

end Ready

/-! ## The first state -/

theorem byteAt_initial {size : Nat} (checksum : UInt32) (h : 8 ≤ size) (i : Nat) :
    byteAt (StreamState.initial size checksum) i =
      (StreamState.magic ++ digits 4 checksum.toNat)[i]?.getD 0 := by
  have hlength : (StreamState.magic ++ digits 4 checksum.toNat).length = 8 := by
    rw [List.length_append, digits_length]
    rfl
  unfold StreamState.initial
  rw [byteAt_replace, hlength, zeros_size, Nat.sub_zero]
  split
  · rfl
  · rw [List.getElem?_eq_none (by omega), byteAt_eq_getD, zeros_data]
    rcases hi : (Array.replicate size (0 : UInt8))[i]? with _ | b
    · rfl
    · rw [Array.getElem?_replicate] at hi
      split at hi
      · cases hi
        rfl
      · cases hi

/-- After the magic bytes and the checksum there are zeros. -/
theorem byteAt_initial_of_le {size i : Nat} (checksum : UInt32) (h : 8 ≤ size) (hi : 8 ≤ i) :
    byteAt (StreamState.initial size checksum) i = 0 := by
  rw [byteAt_initial checksum h, List.getElem?_eq_none]
  · rfl
  · rw [List.length_append, digits_length]
    exact hi

theorem readNumber_initial {size pos : Nat} (checksum : UInt32) (width : Nat) (h : 8 ≤ size)
    (hpos : 8 ≤ pos) : (StreamState.initial size checksum).readNumber pos width = 0 :=
  readNumber_eq_zero fun i _ => byteAt_initial_of_le checksum h (by omega)

/-- The magic bytes come first. -/
theorem magic_initial {size : Nat} (checksum : UInt32) (h : 8 ≤ size) :
    ((StreamState.initial size checksum).slice 0 4).toList = StreamState.magic := by
  have hsize := StreamState.size_initial size checksum
  have hfour : (ofList StreamState.magic).size = 4 := rfl
  have hmagic : slice (StreamState.initial size checksum) 0 (ofList StreamState.magic).size =
      ofList StreamState.magic := by
    rw [slice_eq_iff (by omega)]
    intro i hi
    have hi' : i < StreamState.magic.length := hi
    rw [Nat.zero_add, byteAt_initial checksum h, List.getElem?_append_left hi', byteAt_eq_getD,
      ofList, List.getElem?_toArray]
  rw [← hfour, hmagic, toList_ofList]

/-- The checksum comes after the magic bytes. -/
theorem checksum_initial {size : Nat} (checksum : UInt32) (h : 8 ≤ size) :
    (StreamState.initial size checksum).readNumber 4 4 = checksum.toNat := by
  have hstands : ∀ i, i < (digits 4 checksum.toNat).length →
      byteAt (StreamState.initial size checksum) (4 + i) =
        (digits 4 checksum.toNat)[i]?.getD 0 := by
    intro i _
    have hfour : StreamState.magic.length = 4 := rfl
    rw [byteAt_initial checksum h, List.getElem?_append_right (by omega), hfour,
      Nat.add_sub_cancel_left]
  have hread := readNumber_eq_number hstands
  rw [digits_length, number_digits] at hread
  rw [hread]
  exact Nat.mod_eq_of_lt checksum.toNat_lt

theorem owns_initial (hp : p.Sound) :
    p.Owns (StreamState.initial p.streamSize p.checksum) 0 := by
  have hpatterns := hp.layout.patterns_le
  unfold Layout.patternAt Layout.historyAt at hpatterns
  have hle : 8 ≤ p.streamSize := by
    unfold streamSize
    omega
  exact ⟨StreamState.size_initial _ _, magic_initial _ hle, checksum_initial _ hle,
    readNumber_initial _ 1 hle (by omega)⟩

/-- A stream that was opened waits for its first byte. -/
theorem ready_initial (hp : p.Sound) (stream : Bytes) :
    p.Ready stream 0 [] (StreamState.initial p.streamSize p.checksum) .first []
      fun _ => .start := by
  have hsize := StreamState.size_initial p.streamSize p.checksum
  have howns := owns_initial hp
  have hheader := howns.header_le hp
  have hle : 8 ≤ p.streamSize := by omega
  have hlength : (StreamState.initial p.streamSize p.checksum).readNumber 30 2 = 0 :=
    readNumber_initial p.checksum 2 hle (by omega)
  have hresume : 0 < Key.first.endsAt + max p.lookahead 1 :=
    Nat.lt_of_lt_of_le Nat.one_pos (Nat.le_trans (Nat.le_max_right _ _) (Nat.le_add_left _ _))
  refine ⟨Nat.zero_le _, howns, ?_, ?_, ?_, ?_, Key.first_le _, hresume, ?_, ?_, ?_,
    List.nil_prefix, fun _ hm => absurd hm List.not_mem_nil, ?_, rfl⟩
  · exact readNumber_initial p.checksum 8 hle (by omega)
  · apply Key.ext
    · exact readNumber_initial p.checksum 8 hle (by omega)
    · exact readNumber_initial p.checksum 4 hle (by omega)
  · rw [hlength, Nat.min_zero]
  · have hempty : StreamState.historyOf (StreamState.initial p.streamSize p.checksum) =
        ByteArray.empty := by
      unfold StreamState.historyOf
      rw [hlength, slice_zero]
    rw [hempty, Nat.zero_sub]
    exact .empty (Nat.zero_le _)
  · refine ⟨AgreeOutside.refl _ _ _, hsize, ?_, ?_⟩
    · intro r hr
      have hbefore := hp.layout.patterns_before r hr
      unfold Layout.patternAt Layout.historyAt at hbefore
      refine Tracker.tracks_of_zeros ?_ (hp.trackable r hr) ?_
      · rw [hsize]
        exact hp.layout.inside r hr
      · intro i hi _
        exact byteAt_initial_of_le p.checksum hle (by omega)
    · intro i _
      rw [StreamState.entryOf_eq, readWord_eq,
        readNumber_initial p.checksum 8 hle (by unfold Layout.patternAt Layout.historyAt; omega)]
      rfl
  · exact fun r _ => r.start_found stream
  · intro r _ m hm
    cases hm
  · intro m _
    constructor
    · intro hm
      cases hm
    · intro hlt
      exact absurd (Key.first_le m.key) (not_le_of_gt hlt)

end Program

end StreamMatch
