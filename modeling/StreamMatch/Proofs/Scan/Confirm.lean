-- Confirming an occurrence of a literal during a scan: the history goes back far
-- enough for the automaton of each literal, so it says what it would say of the
-- whole stream, unless it needs bytes after the chunk.
import StreamMatch.Proofs.Scan.Report
import StreamMatch.Proofs.Scan.View

namespace StreamMatch.Scan

open Bytes

variable {s : Scan} {stream : Bytes} {resume : Key} {c : Core} {l : Literal} {i start : Nat}
  {id : AutomatonId}

/-- The history goes back as far as an automaton can reach. -/
theorem floor_le_reach (hs : s.Over stream resume) (hl : l ∈ s.program.literals) {reach : Reach}
    (hbehind : reach.lookbehind ≤ s.program.lookbehind)
    (hresume : resume.endsAt ≤ start + l.bytes.size) :
    (s.input.floor : Int) ≤ max (start + reach.least) 0 := by
  have hlong := hs.sound.size_le l hl
  have hhistory := hs.sound.history
  have hfloor := hs.floor_eq
  have hchunk := hs.chunkStart_le
  unfold Reach.lookbehind at hbehind
  unfold Program.historySize at hfloor
  omega

/-- What the automaton of a literal says of an occurrence of the literal. -/
def Confirms (s : Scan) (stream : Bytes) (l : Literal) (start : Nat) : Verdict → Prop
  | .confirmed first => s.program.confirmedStart? stream l start = some first
  | .rejected => s.program.confirmedStart? stream l start = none
  | .undecided => s.isFinal = false ∧
      s.input.stop < start + l.bytes.size + s.program.lookahead

theorem confirm_spec (hs : s.Over stream resume) (hl : s.program.literals[i]? = some l)
    (ha : l.automaton = some id) (hresume : resume.endsAt ≤ start + l.bytes.size)
    (hend : start + l.bytes.size ≤ s.input.stop) :
    ∃ v, s.Leads (s.confirm · id start) c c v ∧ s.Confirms stream l start v := by
  have hmem : l ∈ s.program.literals := Array.mem_of_getElem? hl
  obtain ⟨a, hget, hcode, hbehind, hahead⟩ := hs.sound.automaton l hmem id ha
  have hlong := hs.sound.size_le l hmem
  have hsize := hs.size_lt
  have hstop := hs.stop_le
  obtain ⟨w, hview, hconfirm⟩ := exists_view hs.shows (by omega) hget hcode
    (show start ≤ s.input.stop by omega)
  have hclips := hview.clips hsize hs.final_eq (floor_le_reach hs hmem hbehind hresume)
  have hleads : ∀ v, w.followFrom a.directives start = .ok v →
      s.Leads (s.confirm · id start) c c v := by
    intro v hv window ties hwindow
    unfold Reach.lookbehind at hbehind
    unfold Reach.lookahead at hahead
    unfold Program.windowSize at hwindow
    obtain ⟨window', hsame, heq⟩ := hconfirm (c.on window ties)
      (show a.reach.most - a.reach.least ≤ window.size by omega) hv
    exact ⟨window', ties, hsame, heq⟩
  obtain ⟨v, hwhole, hne, hwindow⟩ := Window.followFrom_agree hcode hclips (by omega)
  have hconfirmed : s.Confirms stream l start v := by
    unfold Confirms Program.confirmedStart?
    simp only [ha, hget, Option.map_some, hwhole]
    cases v with
    | confirmed first => rfl
    | rejected => rfl
    | undecided => exact absurd rfl hne
  rcases hwindow with hwindow | ⟨hwindow, hlacks⟩
  · exact ⟨v, hleads v hwindow, hconfirmed⟩
  · obtain ⟨hopen, hbefore⟩ := hview.lacks hlacks
    unfold Reach.lookahead at hahead
    exact ⟨.undecided, hleads _ hwindow, hopen, by omega⟩

end StreamMatch.Scan
