-- Scratch spaces and their memory. A scratch space only grows, and the blocks that it
-- has are accounted for wherever growing it stops.
import StreamMatch.Proofs.Memory.Holds

namespace StreamMatch

namespace Block

/-- The mark of a block, unless it is the empty one. -/
def used (b : Block) : List (Nat × Nat) := if b.size = 0 then [] else [b.mark]

theorem used_of_size_pos {b : Block} (h : 0 < b.size) : b.used = [b.mark] :=
  if_neg (by omega)

end Block

namespace Memory

variable {m m' : Memory} {blocks : List (Nat × Nat)} {b b' : Block} {size : Nat}

theorem size_of_request (h : m.request size = (.ok b, m')) : b.size = size := by
  unfold request at h
  rcases heq : m.ask size with ⟨_ | b₁, m₁⟩
  · rw [heq] at h
    cases h
  · rw [heq] at h
    simp only at h
    split at h
    · next hsize =>
      cases h
      exact hsize
    · cases h

/-- A block gives its place only to one that is not smaller and as large as asked for. -/
theorem size_of_grow (h : m.grow b size = (.ok b', m')) : b.size ≤ b'.size ∧ size ≤ b'.size := by
  unfold grow at h
  by_cases hsmall : b.size < size
  · rw [if_pos hsmall] at h
    rcases heq : m.request size with ⟨_ | b₁, m₁⟩
    · rw [heq] at h
      cases h
    · rw [heq] at h
      cases h
      have hsize := size_of_request heq
      omega
  · rw [if_neg hsmall] at h
    cases h
    exact ⟨Nat.le_refl _, by omega⟩

theorem Holds.releaseUsed (h : m.Holds (b.used ++ blocks)) : (m.releaseUsed b).Holds blocks := by
  unfold Memory.releaseUsed
  unfold Block.used at h
  split
  · next hempty => rwa [if_pos hempty] at h
  · next hused =>
    rw [if_neg hused] at h
    exact h.release

/-- A block takes the place of another one, or nothing changes. -/
theorem Holds.grow (h : m.Holds (b.used ++ blocks)) (size : Nat) :
    match m.grow b size with
    | (.ok b', m') => m'.Holds (b'.used ++ blocks)
    | (.error _, m') => m'.Holds (b.used ++ blocks) := by
  unfold Memory.grow
  by_cases hsmall : b.size < size
  · rw [if_pos hsmall]
    have hrequest := h.request size
    rcases heq : m.request size with ⟨_ | b', m'⟩
    · rw [heq] at hrequest
      exact hrequest
    · rw [heq] at hrequest
      have hsize := size_of_request heq
      simp only at hrequest ⊢
      rw [Block.used_of_size_pos (by omega), List.singleton_append]
      refine Holds.releaseUsed (hrequest.perm ?_)
      exact List.perm_middle.symm
  · rw [if_neg hsmall]
    exact h

end Memory

namespace Scratch

variable {s : Scratch} {m : Memory} {p : Program} {blocks : List (Nat × Nat)} {part : Part}

/-- The blocks of some parts. -/
def usedBy (s : Scratch) (parts : List Part) : List (Nat × Nat) :=
  parts.flatMap fun part => (s.part part).used

/-- The blocks that a scratch space has from its memory. -/
def used (s : Scratch) : List (Nat × Nat) := s.usedBy parts

theorem mem_parts (part : Part) : part ∈ parts := by cases part <;> decide

theorem nodup_parts : parts.Nodup := by decide

@[simp]
theorem part_setPart_self (s : Scratch) (b : Block) (part : Part) :
    (s.setPart b part).part part = b := by cases part <;> rfl

theorem part_setPart_of_ne (s : Scratch) (b : Block) {other : Part} (h : other ≠ part) :
    (s.setPart b part).part other = s.part other := by
  cases part <;> cases other <;> first | rfl | exact absurd rfl h

@[simp]
theorem tieCapacity_setPart (s : Scratch) (b : Block) (part : Part) :
    (s.setPart b part).tieCapacity = s.tieCapacity := by cases part <;> rfl

/-- The blocks of the other parts. -/
def usedBeside (s : Scratch) (part : Part) : List (Nat × Nat) := s.usedBy (parts.erase part)

theorem used_perm (s : Scratch) (part : Part) :
    s.used.Perm ((s.part part).used ++ s.usedBeside part) := by
  have hperm := (List.perm_cons_erase (mem_parts part)).flatMap_right fun part =>
    (s.part part).used
  rwa [List.flatMap_cons] at hperm

theorem usedBeside_setPart (s : Scratch) (b : Block) (part : Part) :
    (s.setPart b part).usedBeside part = s.usedBeside part := by
  unfold usedBeside usedBy
  refine List.flatMap_congr fun other hother => ?_
  rw [part_setPart_of_ne s b ((List.Nodup.mem_erase_iff nodup_parts).mp hother).1]

/-- A scratch space has at least the space of another one. -/
structure Covers (s s' : Scratch) : Prop where
  part_le : ∀ part, (s.part part).size ≤ (s'.part part).size
  tieCapacity_le : s.tieCapacity ≤ s'.tieCapacity

theorem Covers.refl (s : Scratch) : s.Covers s := ⟨fun _ => Nat.le_refl _, Nat.le_refl _⟩

theorem Covers.trans {s' s'' : Scratch} (h : s.Covers s') (h' : s'.Covers s'') : s.Covers s'' :=
  ⟨fun part => Nat.le_trans (h.part_le part) (h'.part_le part),
    Nat.le_trans h.tieCapacity_le h'.tieCapacity_le⟩

/-- A program fits if each part and the space for candidates are large enough. -/
theorem validate_eq_ok_iff : s.validate p = .ok () ↔
    (∀ part, part.needed p ≤ (s.part part).size) ∧ p.literals.size ≤ s.tieCapacity := by
  unfold validate
  constructor
  · intro h
    split at h
    · cases h
    · next hsizes =>
      simp only [not_or, Nat.not_lt] at hsizes
      refine ⟨fun part => ?_, hsizes.2.2.2⟩
      cases part with
      | seam => exact hsizes.1
      | window => exact hsizes.2.1
      | block => exact hsizes.2.2.1
  · rintro ⟨hparts, hties⟩
    have hseam : p.seamSize ≤ s.seam.size := hparts .seam
    have hwindow : p.windowSize ≤ s.window.size := hparts .window
    have hblock : p.streamSize ≤ s.block.size := hparts .block
    rw [if_neg (by omega)]

/-- The programs that fit go on to fit in a larger scratch space. -/
theorem Covers.validate {s' : Scratch} (h : s.Covers s') (hp : s.validate p = .ok ()) :
    s'.validate p = .ok () := by
  obtain ⟨hparts, hties⟩ := validate_eq_ok_iff.mp hp
  exact validate_eq_ok_iff.mpr ⟨fun part => Nat.le_trans (hparts part) (h.part_le part),
    Nat.le_trans hties h.tieCapacity_le⟩

/-! ## Growing -/

theorem setPart_covers {b : Block} (h : (s.part part).size ≤ b.size) :
    s.Covers (s.setPart b part) := by
  refine ⟨fun other => ?_, Nat.le_of_eq (tieCapacity_setPart s b part).symm⟩
  by_cases heq : other = part
  · subst heq
    rwa [part_setPart_self]
  · exact Nat.le_of_eq (congrArg Block.size (part_setPart_of_ne s b heq).symm)

/-- Parts that are grown do not get smaller, and they are large enough for the program if
all of them could be grown. -/
theorem growParts_covers (s : Scratch) (m : Memory) (p : Program) (parts : List Part) :
    match s.growParts m p parts with
    | (result, s', _) => s.Covers s' ∧
      (result = .ok () → ∀ part ∈ parts, part.needed p ≤ (s'.part part).size) := by
  induction parts generalizing s m with
  | nil => exact ⟨.refl s, fun _ part hpart => absurd hpart List.not_mem_nil⟩
  | cons part rest ih =>
    rw [growParts]
    rcases heq : m.grow (s.part part) (part.needed p) with ⟨e | b, m'⟩
    · exact ⟨.refl s, fun hok => by cases hok⟩
    · obtain ⟨hle, hneeded⟩ := Memory.size_of_grow heq
      obtain ⟨hcovers, hrest⟩ := ih (s.setPart b part) m'
      refine ⟨(setPart_covers hle).trans hcovers, fun hok => ?_⟩
      refine List.forall_mem_cons.mpr ⟨?_, hrest hok⟩
      have hlast := hcovers.part_le part
      rw [part_setPart_self] at hlast
      omega

/-- The space for candidates does not get smaller, and it is large enough unless it could not
be reserved. The parts stay as they are. -/
theorem growTies_covers (s : Scratch) (m : Memory) (count : Nat) :
    match s.growTies m count with
    | (result, s', _) => s.Covers s' ∧ (result = .ok () → count ≤ s'.tieCapacity) := by
  unfold growTies
  by_cases hsmall : s.tieCapacity < count
  · rw [if_pos hsmall]
    rcases m.reserve (count * candidateSize) with ⟨e | _, m'⟩
    · exact ⟨.refl s, fun hok => by cases hok⟩
    · exact ⟨⟨fun part => by cases part <;> exact Nat.le_refl _, Nat.le_of_lt hsmall⟩,
        fun _ => Nat.le_refl count⟩
  · rw [if_neg hsmall]
    exact ⟨.refl s, fun _ => Nat.le_of_not_lt hsmall⟩

/-- Growing a scratch space never makes it smaller, and makes the program fit if it
succeeds. -/
theorem growFor_covers (s : Scratch) (m : Memory) (p : Program) :
    match s.growFor m p with
    | (result, s', _) => s.Covers s' ∧ (result = .ok () → s'.validate p = .ok ()) := by
  unfold growFor
  cases p.validate with
  | error e => exact ⟨.refl s, fun hok => by cases hok⟩
  | ok _ =>
    have hparts := growParts_covers s m p parts
    rcases heq : s.growParts m p parts with ⟨e | _, s', m'⟩
    · rw [heq] at hparts
      exact ⟨hparts.1, fun hok => by cases hok⟩
    · rw [heq] at hparts
      obtain ⟨hcovers, hneeded⟩ := hparts
      obtain ⟨hties, hcapacity⟩ := growTies_covers s' m' p.literals.size
      refine ⟨hcovers.trans hties, fun hok => validate_eq_ok_iff.mpr
        ⟨fun part => ?_, hcapacity hok⟩⟩
      exact Nat.le_trans (hneeded rfl part (mem_parts part)) (hties.part_le part)

/-! ## What the memory has handed out -/

theorem growParts_holds (h : m.Holds (s.used ++ blocks)) (parts : List Part) :
    match s.growParts m p parts with
    | (_, s', m') => m'.Holds (s'.used ++ blocks) := by
  induction parts generalizing s m with
  | nil => exact h
  | cons part rest ih =>
    have hpart : m.Holds ((s.part part).used ++ (s.usedBeside part ++ blocks)) := by
      rw [← List.append_assoc]
      exact h.perm ((s.used_perm part).append_right blocks)
    have hgrow := hpart.grow (part.needed p)
    rw [growParts]
    rcases heq : m.grow (s.part part) (part.needed p) with ⟨e | b, m'⟩
    · rw [heq, ← List.append_assoc] at hgrow
      exact hgrow.perm ((s.used_perm part).symm.append_right blocks)
    · rw [heq] at hgrow
      have hperm := ((s.setPart b part).used_perm part).symm.append_right blocks
      rw [part_setPart_self, usedBeside_setPart, List.append_assoc] at hperm
      exact ih (hgrow.perm hperm)

/-- Space for candidates is reserved, or refused, apart from the blocks. -/
theorem growTies_holds (h : m.Holds (s.used ++ blocks)) (count : Nat) :
    match s.growTies m count with
    | (_, s', m') => m'.Holds (s'.used ++ blocks) := by
  unfold growTies
  by_cases hsmall : s.tieCapacity < count
  · rw [if_pos hsmall]
    have hreserve := h.reserve (count * candidateSize)
    rcases heq : m.reserve (count * candidateSize) with ⟨e | _, m'⟩
    · rwa [heq] at hreserve
    · rwa [heq] at hreserve
  · rw [if_neg hsmall]
    exact h

/-- The blocks of a scratch space are accounted for wherever growing it stops. -/
theorem growFor_holds (h : m.Holds (s.used ++ blocks)) (p : Program) :
    match s.growFor m p with
    | (_, s', m') => m'.Holds (s'.used ++ blocks) := by
  unfold growFor
  cases p.validate with
  | error e => exact h
  | ok _ =>
    have hparts := growParts_holds (p := p) h parts
    rcases heq : s.growParts m p parts with ⟨e | _, s', m'⟩
    · rw [heq] at hparts
      exact hparts
    · rw [heq] at hparts
      exact growTies_holds hparts p.literals.size

theorem release_holds (h : m.Holds (s.used ++ blocks)) : (s.release m).Holds blocks := by
  have hparts : ∀ (parts : List Part) (m : Memory), m.Holds (s.usedBy parts ++ blocks) →
      (parts.foldl (fun m part => m.releaseUsed (s.part part)) m).Holds blocks := by
    intro parts
    induction parts with
    | nil => exact fun m h => h
    | cons part rest ih =>
      intro m h
      rw [usedBy, List.flatMap_cons, List.append_assoc] at h
      exact ih _ h.releaseUsed
  exact hparts parts m h

theorem allocate_holds (h : m.Holds blocks) (p : Program) :
    match allocate m p with
    | (.ok s, m') => m'.Holds (s.used ++ blocks)
    | (.error _, m') => m'.Holds blocks := by
  have hempty : m.Holds (Scratch.used {} ++ blocks) := h
  have hgrow := growFor_holds hempty p
  unfold allocate
  rcases heq : growFor {} m p with ⟨e | _, s, m'⟩
  · rw [heq] at hgrow
    exact release_holds hgrow
  · rw [heq] at hgrow
    exact hgrow

end Scratch

end StreamMatch
