-- The states from which every scan succeeds: a chunk is scanned from each of them without
-- failing, and leaves another one.
import StreamMatch.Proofs.Scan.Chunk
import StreamMatch.Proofs.Scan.SafeSearch

namespace StreamMatch

open Bytes Checked

namespace Program

variable {p : Program} {n : Nat} {region data : Bytes} {states : Repeat → RunState}
  {entries : Nat → PatternEntry} {isFinal : Bool}

/-- What a scan that was not stopped gives when `n` bytes were scanned. Another chunk can be
scanned from the state that it leaves, and with the buffers that it leaves. -/
structure Proceeds (p : Program) (n : Nat) (isFinal : Bool) (o : Scanned) : Prop where
  completed : ∃ events, o.report = .ok (.completed, events)
  fit : o.buffers.Fit p
  resumable : isFinal = false → p.Resumable n o.region

namespace Resumes

/-- The history is that of some stream, which ends with the chunk. -/
theorem exists_free (hp : p.Sound) (hrank : ∀ r ∈ p.repeats, ∀ b, r.rankOf b < 0x100000000)
    (h : p.Resumes n region states entries) (hlt : n + data.size < 0x4000000000000000)
    (isFinal : Bool) : ∃ stream, (p.scanOf (h.inputOf hp data) isFinal .always).Free stream := by
  obtain ⟨stream, hsize, hhistory, hdata⟩ := PartOf.exists_stream (h.history_le hp) data
  have hlength := h.size_history hp
  have hfloor : n - (StreamState.historyOf region).size = n - p.historySize := by omega
  have hover : (p.scanOf (h.inputOf hp data) isFinal .always).Over stream ⟨n, 0⟩ :=
    ⟨hp, ⟨hhistory, hdata⟩, by omega, rfl, fun _ => hsize.symm, hfloor,
      le_of_lt (Key.lt_def.mpr (.inl (Nat.lt_succ_self n))), Nat.le_add_right _ _⟩
  exact ⟨stream, hover, hsize, hrank, rfl⟩

/-- The candidates of a chunk can be seen. -/
theorem exists_visible (hp : p.Sound) (h : p.Resumes n region states entries) {stream : Bytes}
    (hfree : (p.scanOf (h.inputOf hp data) isFinal .always).Free stream) {first : Nat}
    {cand : Candidate} (hcand : cand ∈ ((Searched.ofChunk p.longest
      (StreamState.historyOf region) data n).candidateGroups p.table first).flatten) :
    ∃ start, (p.scanOf (h.inputOf hp data) isFinal .always).Visible stream cand start := by
  rw [hp.table_eq, Searched.mem_candidateGroups hp.searchable (size_literalBytes_le hp)
    (h.shows hp hfree.isOver.size_lt hfree.isOver.shows)] at hcand
  obtain ⟨start, hoccurs, hfloor, -, hend⟩ := hcand
  exact ⟨start, hoccurs, hfloor, hend⟩

/-- A chunk is scanned without failing, and leaves a state from which every scan
succeeds. -/
theorem scanChunk_proceeds (hp : p.Sound)
    (hrank : ∀ r ∈ p.repeats, ∀ b, r.rankOf b < 0x100000000)
    (h : p.Resumes n region states entries) (hlt : n + data.size < 0x4000000000000000)
    (isFinal : Bool) {buffers : Buffers} (hfit : buffers.Fit p) :
    Succeeds (p.Proceeds (n + data.size) isFinal)
      (p.scanChunk region buffers data isFinal .always) := by
  obtain ⟨stream, hfree⟩ := h.exists_free hp hrank hlt isFinal
  obtain ⟨seam, hseam, hscan⟩ := h.scanChunk_eq hp hfree.isOver.size_lt hfree.isOver.shows
    ((h.accepted hp (by omega)).validate hp) h.keeps.tracks isFinal .always hfit
  have hholds : (p.scanOf (h.inputOf hp data) isFinal .always).Holds region
      ((h.coreFrom states).on buffers.window buffers.ties) states entries :=
    ⟨rfl, hfit.window_le, h.keeps, fun i hi last hlast =>
      Nat.le_trans (h.entries_le i hi last hlast) (Nat.le_add_right n data.size)⟩
  rw [hscan]
  refine (Scan.search_safe hfree hholds ⟨rfl, fun _ _ _ _ => Key.first_le _⟩ h.fits _
    fun cand hcand => h.exists_visible hp hfree hcand).bind ?_
  rintro ⟨pr, action⟩ ⟨hproceed, hsame, -, hresume, states', entries', hsafe⟩
  simp only at hproceed hsame hresume hsafe
  rw [hproceed]
  obtain ⟨region', hclose, hpaused, -, hresumeOf, hkeeps⟩ :=
    Scan.closeChunk_paused hfree.isOver h.owns (h.size_history hp) hsame hsafe.keeps
  refine .step hclose (.of_ok ⟨⟨pr.events, rfl⟩, ⟨?_, hsafe.window_le, hfit.ties_le⟩, ?_⟩)
  · rw [hseam]
    exact hfit.seam_le
  · intro hfinal
    refine ⟨states', entries', hpaused, ?_, hkeeps, hsafe.fitting, hsafe.entries_le⟩
    rw [hresumeOf]
    exact hresume hfinal

end Resumes

end Program

end StreamMatch
