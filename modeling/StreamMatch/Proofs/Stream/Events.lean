-- What is reported for a stream depends on its bytes alone: the events are those
-- of the matches in the order of their keys, wherever the stream is cut into
-- chunks.
import StreamMatch.Proofs.Stream.Calls

namespace StreamMatch

open Bytes

variable {p : Program}

/-- The scan of a block of data, as it is done in one piece, tells the events of the
matches. -/
theorem Program.scans_block (hp : p.Sound) {data : Bytes} (hsize : data.size < 0x4000000000000000) :
    ∃ events region, p.Scans (StreamState.initial p.streamSize p.checksum) data true .always
        .completed events region ∧ events.toList = p.eventsOf (p.rawMatches data) :=
  (p.awaits_initial hp data).scans_final hp hsize (PartOf.refl data) (Nat.zero_add _)

/-- The scan of a block of data tells the events of its matches: of the confirmed
literals and of the runs within the bounds, in the order of their keys, and
without those that a match before them hides. -/
theorem Program.scanBlock_events (hp : p.Built) (hids : p.literals.size ≤ 0x100000000)
    {data : Bytes} (hsize : data.size < 0x4000000000000000) {scratch : Scratch}
    (hscratch : scratch.validate p = .ok ()) :
    ∃ events scratch', p.scanBlock scratch data .always =
        .ok (.ok (.completed, events), scratch') ∧
      events.toList = p.eventsOf (p.rawMatches data) := by
  obtain ⟨events, region, hscans, hevents⟩ := p.scans_block (hp.sound hids) hsize
  obtain ⟨scratch', hscan⟩ := scanBlock_of_scans (hp.sound hids) hp.validate hscratch hscans
  exact ⟨events, scratch', hscan, hevents⟩

/-- The events of the block `abb` for the small program. -/
theorem smallProgram_scanBlock : ∃ events scratch',
    smallProgram.scanBlock (.smallest smallProgram) (.ofList [97, 98, 98]) .always =
        .ok (.ok (.completed, events), scratch') ∧
      events.toList = smallProgram.eventsOf (smallProgram.rawMatches (.ofList [97, 98, 98])) :=
  Program.scanBlock_events smallProgram_built smallProgram_ids (by decide)
    (Scratch.validate_smallest smallProgram)

/-- The scans of consecutive chunks and the close of the stream tell the events of
the matches of all the data. -/
theorem Stream.scanEach_events (hp : p.Built) (hids : p.literals.size ≤ 0x100000000)
    {chunks : List Bytes} (hsize : (join chunks).size < 0x4000000000000000) {m m' : Memory}
    {s : Stream} (hstart : start p m = (.ok s, m')) {scratch : Scratch}
    (hscratch : scratch.validate p = .ok ()) :
    ∃ (told : List (Array Event)) (s' : Stream) (scratch' : Scratch),
      s.scanEach scratch .always chunks =
        .ok (told.map fun events => .ok (.completed, events), s', scratch') ∧
      ∀ m, ∃ last scratch'' m', s'.close scratch' .always m =
          .ok (.ok (.completed, last), scratch'', m') ∧
        told.flatMap Array.toList ++ last.toList = p.eventsOf (p.rawMatches (join chunks)) := by
  have hsound := hp.sound hids
  obtain ⟨rfl, hstate⟩ := start_eq_ok hstart
  obtain ⟨told, region, hruns, hawaits⟩ :=
    (s.program.awaits_initial hsound (join chunks)).runs_always hsound hsize (PartOf.refl _)
  rw [← hstate] at hruns
  obtain ⟨scratch', hscan, hscratch'⟩ := scanEach_of_runs hp.validate hscratch hruns
  rw [Nat.zero_add] at hawaits
  obtain ⟨last, region', hscans, hevents⟩ := hawaits.scans_final hsound hsize
    (.empty (Nat.le_refl _)) (Nat.add_zero _)
  refine ⟨told, s.withBytes region, scratch', ?_, fun m => ?_⟩
  · rw [hscan, List.map_map]
    rfl
  · obtain ⟨scratch'', m', hclose, -⟩ := close_of_scans (s := s.withBytes region) hp.validate
      hscratch' hscans m
    exact ⟨last, scratch'', m', hclose, hevents⟩

/-- Data that is scanned in chunks, wherever it is cut, gives the same events as
the same data in one block. -/
theorem Stream.scanEach_eq_scanBlock (hp : p.Built) (hids : p.literals.size ≤ 0x100000000)
    {data : Bytes} (hsize : data.size < 0x4000000000000000) {chunks : List Bytes}
    (hchunks : join chunks = data) {m m' : Memory} {s : Stream} (hstart : start p m = (.ok s, m'))
    {scratch scratch' : Scratch} (hscratch : scratch.validate p = .ok ())
    (hscratch' : scratch'.validate p = .ok ()) (m'' : Memory) :
    ∃ (told : List (Array Event)) (s' : Stream) (last block : Array Event)
      (left left' left'' : Scratch) (after : Memory),
      s.scanEach scratch .always chunks =
        .ok (told.map fun events => .ok (.completed, events), s', left) ∧
      s'.close left .always m'' = .ok (.ok (.completed, last), left', after) ∧
      p.scanBlock scratch' data .always = .ok (.ok (.completed, block), left'') ∧
      told.flatMap Array.toList ++ last.toList = block.toList := by
  subst hchunks
  obtain ⟨told, s', left, hscan, hclose⟩ := scanEach_events hp hids hsize hstart hscratch
  obtain ⟨last, left', after, hclose, hevents⟩ := hclose m''
  obtain ⟨block, region, hscans, hblock⟩ := p.scans_block (hp.sound hids) hsize
  obtain ⟨left'', hscan'⟩ := Program.scanBlock_of_scans (hp.sound hids) hp.validate hscratch' hscans
  exact ⟨told, s', last, block, left, left', left'', after, hscan, hclose, hscan',
    hevents.trans hblock.symm⟩

/-- The block `abb`, cut after its first byte and with an empty chunk there. -/
theorem smallProgram_scanEach : ∃ s m, Stream.start smallProgram { allocator := .system } =
      (.ok s, m) ∧
    ∃ (told : List (Array Event)) (s' : Stream) (last block : Array Event)
      (left left' left'' : Scratch) (after : Memory),
      s.scanEach (.smallest smallProgram) .always [.ofList [97], .empty, .ofList [98, 98]] =
        .ok (told.map fun events => .ok (.completed, events), s', left) ∧
      s'.close left .always m = .ok (.ok (.completed, last), left', after) ∧
      smallProgram.scanBlock (.smallest smallProgram) (.ofList [97, 98, 98]) .always =
        .ok (.ok (.completed, block), left'') ∧
      told.flatMap Array.toList ++ last.toList = block.toList := by
  obtain ⟨s, m, hstart⟩ := smallProgram_start
  exact ⟨s, m, hstart, Stream.scanEach_eq_scanBlock smallProgram_built smallProgram_ids (by decide)
    (by decide) hstart (Scratch.validate_smallest _) (Scratch.validate_smallest _) m⟩

end StreamMatch
