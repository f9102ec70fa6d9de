-- How late a stream tells its matches. A match is held back only until the bytes
-- that some automaton can look at after it were seen, and the byte after its end.
import StreamMatch.Proofs.Stream.Completed
import StreamMatch.Proofs.Stream.Events

namespace StreamMatch

open Bytes

namespace Program

variable {p : Program} {stream region : Bytes} {n : Nat} {past : List Event} {resume : Key}
  {reported : List RawMatch} {states : Repeat → RunState}

/-- An event that ends so early that nothing it could wait for is still missing
after `n` bytes. -/
def IsDue (p : Program) (n : Nat) (e : Event) : Prop :=
  e.endsAt < n ∧ e.endsAt + p.lookahead ≤ n

/-- A match that is due was reported. -/
theorem Ready.mem_reported_of_isDue (h : p.Ready stream n past region resume reported states)
    {m : RawMatch} (hm : m ∈ p.rawMatches stream) (hdue : p.IsDue n (p.eventOf m)) :
    m ∈ reported := by
  obtain ⟨hend, hahead⟩ := hdue
  have hlt := h.lt_resume
  simp only [eventOf] at hend hahead
  exact h.mem_reported hm hend (Key.lt_of_endsAt_lt (by omega))

/-- The events so far come first among all those of the stream, and none of the
others is due. -/
theorem Awaits.exists_later (hp : p.Sound) (h : p.Awaits stream n past region) :
    ∃ later, p.eventsOf (p.rawMatches stream) = past ++ later ∧ ∀ e ∈ later, ¬p.IsDue n e := by
  obtain ⟨resume, reported, states, hready⟩ := h
  obtain ⟨rest, hrest⟩ := hready.ordered
  -- What is kept of the matches reported does not depend on the matches after them.
  obtain ⟨more, hmore, hsub⟩ := p.exists_kept_append reported rest
  have hsorted : (p.rawMatches stream).Pairwise fun a b => a.key < b.key :=
    hp.pairwise_rawMatches
  rw [← hrest] at hsorted
  obtain ⟨-, -, hbefore⟩ := List.pairwise_append.mp hsorted
  refine ⟨more.map p.eventOf, ?_, ?_⟩
  · rw [← hrest, hready.events_eq]
    unfold eventsOf
    rw [hmore, List.map_append]
  · intro e he hdue
    obtain ⟨m, hm, rfl⟩ := List.mem_map.mp he
    have hlater : m ∈ rest := hsub.subset hm
    have hall : m ∈ p.rawMatches stream := by
      rw [← hrest]
      exact List.mem_append_right reported hlater
    -- It would be reported, and so come before itself.
    have hreported := hready.mem_reported_of_isDue hall hdue
    exact absurd (hbefore m hreported m hlater) (lt_irrefl _)

end Program

/-- What a stream told so far comes first among the events of each block that
starts with the same bytes. The events that the stream did not tell yet are not
due. -/
theorem Stream.bounded_delay {p : Program} (hp : p.Built) (hids : p.literals.size ≤ 0x100000000)
    {m m' : Memory} {s : Stream} (hstart : start p m = (.ok s, m')) {calls : List Call}
    (hsize : (join (calls.map Call.data)).size < 0x4000000000000000)
    (hcalls : ∀ c ∈ calls, c.scratch.validate p = .ok ())
    (halways : ∀ c ∈ calls, c.policy = .always) :
    ∃ results s', s.scanCalls calls = .ok (results, s') ∧ (∀ r ∈ results, r.1.IsCompleted) ∧
      ∀ rest scratch, (join (calls.map Call.data) ++ rest).size < 0x4000000000000000 →
        scratch.validate p = .ok () →
        ∃ block left later, p.scanBlock scratch (join (calls.map Call.data) ++ rest) .always =
            .ok (.ok (.completed, block), left) ∧
          block.toList = toldBy results ++ later ∧
          ∀ e ∈ later, ¬p.IsDue (join (calls.map Call.data)).size e := by
  have hsound := hp.sound hids
  obtain ⟨results, region, hscan, hafter⟩ := exists_awaits hp hids hstart hsize hcalls
  have hcompleted := completed_of_always hp hids hstart hsize hcalls hscan halways
  refine ⟨results, s.withBytes region, hscan, hcompleted, fun rest scratch hlt hscratch => ?_⟩
  obtain ⟨later, hevents, hnot⟩ :=
    (hafter hcompleted _ hlt (PartOf.prefix_of_append _ rest)).exists_later hsound
  obtain ⟨block, region', hscans, hblock⟩ := p.scans_block hsound hlt
  obtain ⟨left, hblockScan⟩ := Program.scanBlock_of_scans hsound hp.validate hscratch hscans
  exact ⟨block, left, later, hblockScan, hblock.trans hevents, hnot⟩

/-- A stream after the chunks `xab` and `c`, and any block that starts with those bytes. The
byte after the `b` has to be seen, so the events that end before the last byte are told. -/
theorem betweenProgram_delay : ∃ s m,
    Stream.start Scan.betweenProgram { allocator := .system } = (.ok s, m) ∧
    Scan.betweenProgram.lookahead = 1 ∧
    ∃ results s', s.scanCalls [⟨.smallest Scan.betweenProgram, .ofList [120, 97, 98], .always⟩,
        ⟨.smallest Scan.betweenProgram, .ofList [99], .always⟩] = .ok (results, s') ∧
      (∀ r ∈ results, r.1.IsCompleted) ∧
      ∀ rest scratch,
        (join [.ofList [120, 97, 98], .ofList [99]] ++ rest).size < 0x4000000000000000 →
        scratch.validate Scan.betweenProgram = .ok () →
        ∃ block left later, Scan.betweenProgram.scanBlock scratch
            (join [.ofList [120, 97, 98], .ofList [99]] ++ rest) .always =
            .ok (.ok (.completed, block), left) ∧
          block.toList = toldBy results ++ later ∧
          ∀ e ∈ later, ¬Scan.betweenProgram.IsDue 4 e := by
  obtain ⟨s, m, hstart⟩ := betweenProgram_start
  have hcalls : ∀ c ∈ ([⟨.smallest Scan.betweenProgram, .ofList [120, 97, 98], .always⟩,
      ⟨.smallest Scan.betweenProgram, .ofList [99], .always⟩] : List Call),
      c.scratch.validate Scan.betweenProgram = .ok () := by simp [Scratch.validate_smallest]
  exact ⟨s, m, hstart, by decide, Stream.bounded_delay betweenProgram_built betweenProgram_ids
    hstart (by decide) hcalls (by simp)⟩

end StreamMatch
