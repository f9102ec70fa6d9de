-- Scanning never allocates: a stream and a scratch space keep the blocks of memory
-- that they have, and only what the blocks hold changes.
import StreamMatch.Proofs.Bytes.Fields
import StreamMatch.Proofs.Memory.Growing
import StreamMatch.Proofs.Scan.Sizes
import StreamMatch.Stream

namespace StreamMatch

open Bytes Checked

/-- The same block of memory, whatever it holds. -/
structure Block.Same (a b : Block) : Prop where
  serial_eq : b.serial = a.serial
  size_eq : b.size = a.size

theorem Block.Same.mark_eq {a b : Block} (h : a.Same b) : b.mark = a.mark := by
  rw [mark, mark, h.serial_eq, h.size_eq]

theorem Block.Same.used_eq {a b : Block} (h : a.Same b) : b.used = a.used := by
  rw [used, used, h.mark_eq, h.size_eq]

/-- The same blocks of memory and the same space for candidates. -/
structure Scratch.Same (a b : Scratch) : Prop where
  part : ∀ part, (a.part part).Same (b.part part)
  tieCapacity_eq : b.tieCapacity = a.tieCapacity

namespace Scratch

theorem Same.refl (a : Scratch) : a.Same a := ⟨fun _ => ⟨rfl, rfl⟩, rfl⟩

/-- The same programs fit in the same blocks. -/
theorem Same.validate_eq {a b : Scratch} (h : a.Same b) (p : Program) :
    b.validate p = a.validate p := by
  have hseam : b.seam.size = a.seam.size := (h.part .seam).size_eq
  have hwindow : b.window.size = a.window.size := (h.part .window).size_eq
  have hblock : b.block.size = a.block.size := (h.part .block).size_eq
  unfold validate
  rw [hseam, hwindow, hblock, h.tieCapacity_eq]

theorem Same.used_eq {a b : Scratch} (h : a.Same b) : b.used = a.used :=
  List.flatMap_congr fun part _ => (h.part part).used_eq

theorem withBuffers_same {scratch : Scratch} {b : Buffers} (hseam : b.seam.size = scratch.seam.size)
    (hwindow : b.window.size = scratch.window.size) : scratch.Same (scratch.withBuffers b) := by
  refine ⟨fun part => ?_, rfl⟩
  cases part with
  | seam => exact ⟨rfl, hseam⟩
  | window => exact ⟨rfl, hwindow⟩
  | block => exact ⟨rfl, rfl⟩

end Scratch

/-- The same stream, in another state. -/
structure Stream.Same (a b : Stream) : Prop where
  program_eq : b.program = a.program
  state : a.state.Same b.state

namespace Stream

/-- The block of a stream. -/
def used (s : Stream) : List (Nat × Nat) := [s.state.mark]

theorem release_eq {a b : Stream} (h : a.Same b) (m : Memory) : b.release m = a.release m := by
  unfold release Memory.release
  rw [h.state.serial_eq, h.state.size_eq]

theorem Same.used_eq {a b : Stream} (h : a.Same b) : b.used = a.used := by
  rw [used, used, h.state.mark_eq]

theorem scanWith_same (s : Stream) (scratch : Scratch) (data : Bytes) (isFinal : Bool)
    (policy : Policy) : Ensures (fun r => s.Same r.2.1 ∧ scratch.Same r.2.2)
      (s.scanWith scratch data isFinal policy) := by
  unfold scanWith
  cases check s.program scratch with
  | error e => exact Ensures.of_ok ⟨⟨rfl, rfl, rfl⟩, .refl scratch⟩
  | ok _ =>
    refine (s.program.scanChunk_sizes s.state.bytes scratch.buffers data isFinal policy).bind ?_
    rintro ⟨report, region, buffers⟩ ⟨hregion, hseam, hwindow, -⟩
    exact Ensures.of_ok ⟨⟨rfl, rfl, hregion⟩, Scratch.withBuffers_same hseam hwindow⟩

theorem close_same (s : Stream) (scratch : Scratch) (policy : Policy) (m : Memory) :
    Ensures (fun r => scratch.Same r.2.1 ∧ r.2.2 = s.release m) (s.close scratch policy m) := by
  refine (s.scanWith_same scratch .empty true policy).bind ?_
  rintro ⟨report, t, left⟩ ⟨hstream, hscratch⟩
  exact Ensures.of_ok ⟨hscratch, release_eq hstream m⟩

/-- The initial state of a program takes the whole block. -/
theorem initial_same (b : Block) (checksum : UInt32) :
    b.Same ⟨b.serial, StreamState.initial b.size checksum⟩ := by
  refine ⟨rfl, ?_⟩
  unfold Block.size
  rw [StreamState.size_initial]

theorem reset_same (s : Stream) : s.Same s.reset := by
  unfold reset withBytes
  exact ⟨rfl, initial_same s.state s.program.checksum⟩

theorem copyFrom_same {s other t : Stream} (h : s.copyFrom other = .ok t) : s.Same t := by
  unfold copyFrom at h
  split at h
  · cases h
  · next hsame =>
    cases h
    simp only [not_or, not_not] at hsame
    exact ⟨rfl, rfl, hsame.2.symm⟩

theorem restore_same (s : Stream) (bytes : Bytes) : s.Same (s.restore bytes).2 := by
  unfold restore
  split
  · exact s.reset_same
  · next hsize =>
    simp only
    split
    · exact ⟨rfl, rfl, not_not.mp hsize⟩
    · exact s.reset_same

/-! ## Streams that take a block -/

variable {m : Memory} {blocks : List (Nat × Nat)}

theorem release_holds {s : Stream} (h : m.Holds (s.used ++ blocks)) : (s.release m).Holds blocks :=
  Memory.Holds.release h

theorem start_holds (h : m.Holds blocks) (p : Program) :
    match start p m with
    | (.ok s, m') => m'.Holds (s.used ++ blocks)
    | (.error _, m') => m'.Holds blocks := by
  unfold start
  cases p.validate with
  | error e => exact h
  | ok _ =>
    have hrequest := h.request p.streamSize
    rcases heq : m.request p.streamSize with ⟨e | b, m'⟩
    · rw [heq] at hrequest
      exact hrequest
    · rw [heq] at hrequest
      simp only [used, (initial_same b p.checksum).mark_eq]
      exact hrequest

theorem size_of_start {p : Program} {s : Stream} {m' : Memory} (h : start p m = (.ok s, m')) :
    s.state.size = s.program.streamSize := by
  unfold start at h
  split at h
  · cases h
  · split at h
    · next b m₁ heq =>
      cases h
      exact (initial_same b p.checksum).size_eq.trans (Memory.size_of_request heq)
    · cases h

theorem clone_holds (h : m.Holds blocks) (s : Stream) :
    match s.clone m with
    | (.ok t, m') => m'.Holds (t.used ++ blocks)
    | (.error _, m') => m'.Holds blocks := by
  unfold clone
  have hrequest := h.request s.state.size
  rcases heq : m.request s.state.size with ⟨e | b, m'⟩
  · rw [heq] at hrequest
    exact hrequest
  · rw [heq] at hrequest
    have hsame : b.Same ⟨b.serial, s.state.bytes⟩ := ⟨rfl, (Memory.size_of_request heq).symm⟩
    simp only [used, hsame.mark_eq]
    exact hrequest

theorem of_clone {s t : Stream} {m' : Memory} (h : s.clone m = (.ok t, m')) :
    t.program = s.program ∧ t.state.size = s.state.size := by
  unfold clone at h
  split at h
  · cases h
    exact ⟨rfl, rfl⟩
  · cases h

end Stream

theorem Program.scanBlock_same (p : Program) (scratch : Scratch) (data : Bytes) (policy : Policy) :
    Ensures (fun r => scratch.Same r.2) (p.scanBlock scratch data policy) := by
  unfold scanBlock Stream.check
  cases p.validate with
  | error e => exact Ensures.of_ok (.refl scratch)
  | ok _ =>
    rcases hvalid : scratch.validate p with e | _
    · exact Ensures.of_ok (.refl scratch)
    · have hle : p.streamSize ≤ scratch.block.size :=
        (Scratch.validate_eq_ok_iff.mp hvalid).1 .block
      have hslice : (scratch.block.bytes.slice 0 p.streamSize).size = p.streamSize :=
        size_slice_of_le (by rwa [Nat.zero_add])
      refine .step fun start hstart => .step fun region hreset =>
        (p.scanChunk_sizes region _ data true policy).bind ?_
      rw [sliceWithin_eq_ok (by rwa [Nat.zero_add])] at hstart
      cases hstart
      rintro ⟨report, region', buffers⟩ ⟨hregion, hseam, hwindow, -⟩
      have hstate : region'.size = p.streamSize :=
        hregion.trans ((StreamState.size_of_reset hreset).trans hslice)
      refine Ensures.of_ok ⟨fun part => ?_, rfl⟩
      cases part with
      | seam => exact ⟨rfl, hseam⟩
      | window => exact ⟨rfl, hwindow⟩
      | block =>
        refine ⟨rfl, ?_⟩
        unfold Block.size at hle
        simp only [Scratch.part, Block.size, ByteArray.size_append, size_slice]
        omega

end StreamMatch
