-- The blocks that a memory has handed out and that were not given back. Each operation
-- that takes memory accounts for the blocks that it gets, also when it fails.
import Mathlib.Data.List.Perm.Basic
import Mathlib.Data.List.Nodup
import StreamMatch.Scratch

namespace StreamMatch

/-! ## Events -/

/-- A block as the events of a memory tell it: by its serial number and its size. -/
def Block.mark (b : Block) : Nat × Nat := (b.serial, b.size)

/-- The serial number of the block that an event gives back. -/
def MemoryEvent.freed? : MemoryEvent → Option Nat
  | released serial _ => some serial
  | _ => none

namespace Memory

/-- The blocks that are handed out after some events, from those that were before.
There is nothing if a block is given back that was not handed out. -/
def replay (blocks : List (Nat × Nat)) : List MemoryEvent → Option (List (Nat × Nat))
  | [] => some blocks
  | .refused :: rest => replay blocks rest
  | .granted serial size :: rest => replay ((serial, size) :: blocks) rest
  | .released serial size :: rest =>
    if (serial, size) ∈ blocks then replay (blocks.erase (serial, size)) rest else none

/-- The blocks that a memory has handed out and that were not given back. -/
def outstanding (m : Memory) : Option (List (Nat × Nat)) := replay [] m.events.toList

/-- The serial numbers of the blocks that were given back. -/
def freed (m : Memory) : List Nat := m.events.toList.filterMap MemoryEvent.freed?

theorem replay_append (blocks : List (Nat × Nat)) (a b : List MemoryEvent) :
    replay blocks (a ++ b) = (replay blocks a).bind fun blocks => replay blocks b := by
  induction a generalizing blocks with
  | nil => rfl
  | cons e rest ih =>
    cases e with
    | refused => exact ih blocks
    | granted serial size => exact ih _
    | released serial size =>
      rw [List.cons_append, replay, replay]
      split
      · exact ih _
      · rfl

theorem outstanding_push (m : Memory) (e : MemoryEvent) :
    outstanding { m with events := m.events.push e } =
      m.outstanding.bind fun blocks => replay blocks [e] := by
  unfold outstanding
  rw [Array.toList_push, replay_append]

theorem freed_push (m : Memory) (e : MemoryEvent) :
    freed { m with events := m.events.push e } = m.freed ++ e.freed?.toList := by
  unfold freed
  rw [Array.toList_push, List.filterMap_append]
  cases h : e.freed? with
  | none => rw [List.filterMap_cons_none h]; rfl
  | some n => rw [List.filterMap_cons_some h]; rfl

/-- The blocks that a memory has handed out are the given ones, in any order. They and
those that were given back have serial numbers of their own, which no block gets again. -/
structure Holds (m : Memory) (blocks : List (Nat × Nat)) : Prop where
  outstanding : ∃ out, m.outstanding = some out ∧ out.Perm blocks
  nodup : (m.freed ++ blocks.map Prod.fst).Nodup
  serial_lt : ∀ n ∈ m.freed ++ blocks.map Prod.fst, n < m.events.size

namespace Holds

variable {m m' : Memory} {blocks blocks' : List (Nat × Nat)} {b : Block} {size : Nat}

/-- A memory to which nothing happened has handed out nothing. -/
theorem of_events_eq_empty (h : m.events = #[]) : m.Holds [] := by
  have hfreed : m.freed = [] := by
    rw [freed, h]
    rfl
  refine ⟨⟨[], ?_, List.Perm.nil⟩, ?_, ?_⟩
  · rw [Memory.outstanding, h]
    rfl
  · simp [hfreed]
  · simp [hfreed]

theorem perm (h : m.Holds blocks) (hp : blocks.Perm blocks') : m.Holds blocks' := by
  obtain ⟨out, hout, hperm⟩ := h.outstanding
  have hserials : (m.freed ++ blocks.map Prod.fst).Perm (m.freed ++ blocks'.map Prod.fst) :=
    (hp.map Prod.fst).append_left m.freed
  exact ⟨⟨out, hout, hperm.trans hp⟩, hserials.nodup_iff.mp h.nodup,
    fun n hn => h.serial_lt n (hserials.mem_iff.mpr hn)⟩

theorem release (h : m.Holds (b.mark :: blocks)) : (m.release b).Holds blocks := by
  obtain ⟨out, hout, hperm⟩ := h.outstanding
  have hmem : b.mark ∈ out := hperm.mem_iff.mpr List.mem_cons_self
  -- The serial number of the block goes over to those that were given back.
  have hserials : (m.release b).freed ++ blocks.map Prod.fst =
      m.freed ++ (b.mark :: blocks).map Prod.fst := by
    unfold Memory.release
    rw [freed_push, List.append_assoc]
    rfl
  refine ⟨⟨out.erase b.mark, ?_, ?_⟩, ?_, fun n hn => ?_⟩
  · unfold Memory.release
    rw [outstanding_push, hout]
    exact if_pos hmem
  · exact List.cons_perm_iff_perm_erase.mp hperm.symm |>.2.symm
  · rw [hserials]
    exact h.nodup
  · rw [hserials] at hn
    have hlt := h.serial_lt n hn
    simp only [Memory.release, Array.size_push]
    omega

/-- What the allocator answers is accounted for. -/
theorem ask (h : m.Holds blocks) (size : Nat) :
    match m.ask size with
    | (some b, m') => m'.Holds (b.mark :: blocks)
    | (none, m') => m'.Holds blocks := by
  obtain ⟨out, hout, hperm⟩ := h.outstanding
  unfold Memory.ask
  cases m.allocator m.events size with
  | none =>
    have hfreed : freed { m with events := m.events.push .refused } = m.freed := by
      rw [freed_push]
      exact List.append_nil _
    refine ⟨⟨out, ?_, hperm⟩, ?_, fun n hn => ?_⟩
    · rw [outstanding_push, hout]
      rfl
    · rw [hfreed]
      exact h.nodup
    · rw [hfreed] at hn
      have hlt := h.serial_lt n hn
      simp only [Array.size_push]
      omega
  | some bytes =>
    -- The number of the events before is the serial number of no block so far.
    have hserials : (freed { m with events := m.events.push (.granted m.events.size bytes.size) }
        ++ ((m.events.size, bytes.size) :: blocks).map Prod.fst).Perm
        (m.events.size :: (m.freed ++ blocks.map Prod.fst)) := by
      rw [freed_push]
      simp only [MemoryEvent.freed?, Option.toList_none, List.append_nil, List.map_cons]
      exact List.perm_middle
    refine ⟨⟨_ :: out, ?_, hperm.cons _⟩, ?_, fun n hn => ?_⟩
    · rw [outstanding_push, hout]
      rfl
    · refine hserials.nodup_iff.mpr (List.nodup_cons.mpr ⟨fun hin => ?_, h.nodup⟩)
      exact absurd (h.serial_lt _ hin) (Nat.lt_irrefl _)
    · rw [Array.size_push]
      rcases List.mem_cons.mp (hserials.mem_iff.mp hn) with rfl | hn
      · exact Nat.lt_succ_self _
      · exact Nat.lt_succ_of_lt (h.serial_lt n hn)

/-- A block is handed out, or nothing. -/
theorem request (h : m.Holds blocks) (size : Nat) :
    match m.request size with
    | (.ok b, m') => m'.Holds (b.mark :: blocks)
    | (.error _, m') => m'.Holds blocks := by
  have hask := h.ask size
  unfold Memory.request
  rcases heq : m.ask size with ⟨_ | b, m'⟩
  · rw [heq] at hask
    exact hask
  · rw [heq] at hask
    simp only at hask ⊢
    by_cases hsize : b.size = size
    · rw [if_pos hsize]
      exact hask
    · rw [if_neg hsize]
      exact hask.release

/-- What was handed out does not depend on the space that was reserved. -/
theorem reserve (h : m.Holds blocks) (size : Nat) : (m.reserve size).2.Holds blocks :=
  ⟨h.outstanding, h.nodup, h.serial_lt⟩

end Holds

end Memory

end StreamMatch
