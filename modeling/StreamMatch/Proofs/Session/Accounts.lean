-- The blocks of a session: the states of its streams and the parts of its scratch
-- spaces, in the memories where they live. What is put into a session or taken out of it
-- takes its blocks along.
import StreamMatch.Proofs.Session.Run
import StreamMatch.Proofs.Stream.Blocks

namespace StreamMatch

open Checked

/-! ## Blocks of values with names -/

/-- Blocks that are in one memory. -/
def onlyIn (i : Option Nat) (blocks : List (Nat × Nat)) : Option Nat → List (Nat × Nat) := fun j =>
  if j = i then blocks else []

theorem onlyIn_self (i : Option Nat) (blocks : List (Nat × Nat)) : onlyIn i blocks i = blocks :=
  if_pos rfl

theorem onlyIn_of_ne {i j : Option Nat} (h : j ≠ i) (blocks : List (Nat × Nat)) :
    onlyIn i blocks j = [] := if_neg h

/-- Nothing is in any memory. -/
def nowhere : Option Nat → List (Nat × Nat) := fun _ => []

theorem onlyIn_nil (i : Option Nat) : onlyIn i [] = nowhere := by
  funext j
  exact ite_self []

section Held

variable {α : Type} (used : α → List (Nat × Nat))

/-- The blocks that a value has in each memory. -/
def Owned.held (o : Owned α) : Option Nat → List (Nat × Nat) := onlyIn o.memory (used o.value)

/-- The blocks of a value that may not be there. -/
def heldBy : Option (Owned α) → Option Nat → List (Nat × Nat)
  | none => nowhere
  | some o => o.held used

/-- The blocks that some values have in a memory. -/
def Named.held (values : Named (Owned α)) (i : Option Nat) : List (Nat × Nat) :=
  values.flatMap fun v => v.2.held used i

theorem Named.held_perm {values : Named (Owned α)} (hnodup : (values.map Prod.fst).Nodup)
    (name : String) (i : Option Nat) :
    (values.held used i).Perm
      (heldBy used (values.find? name) i ++ (values.erase name).held used i) := by
  rcases h : values.find? name with _ | o
  · rw [erase_eq_self h]
    exact List.Perm.refl _
  · exact (perm_of_find? hnodup h).flatMap_right _

theorem Named.held_insert (values : Named (Owned α)) (name : String) (o : Owned α)
    (i : Option Nat) :
    (values.insert name o).held used i = o.held used i ++ (values.erase name).held used i :=
  List.flatMap_cons

end Held

namespace Session

variable {s s' : Session} {m m' : Memory} {i : Option Nat} {name : String}
  {extra : Option Nat → List (Nat × Nat)}

/-- The blocks that the streams and the scratch spaces of a session have in a memory. -/
def held (s : Session) (i : Option Nat) : List (Nat × Nat) :=
  s.streams.held Stream.used i ++ s.scratches.held Scratch.used i

/-- What each memory has handed out are the blocks of the session and some that are on
the way. -/
def Accounts (s : Session) (extra : Option Nat → List (Nat × Nat)) : Prop :=
  ∀ i m, s.memory i = some m → m.Holds (extra i ++ s.held i)

/-- Each name is there once, everything lives in a memory of the session, and the state of
each stream has the size that its program needs. -/
structure Tidy (s : Session) : Prop where
  nodup_streams : (s.streams.map Prod.fst).Nodup
  nodup_scratches : (s.scratches.map Prod.fst).Nodup
  streams_known : ∀ v ∈ s.streams, (s.memory v.2.memory).isSome
  scratches_known : ∀ v ∈ s.scratches, (s.memory v.2.memory).isSome
  sizes : ∀ v ∈ s.streams, v.2.value.state.size = v.2.value.program.streamSize

/-! ## Memories -/

theorem memory_setMemory (h : s.memory i = some m) (m' : Memory) (j : Option Nat) :
    (s.setMemory m' i).memory j = if j = i then some m' else s.memory j := by
  cases i with
  | none =>
    cases j with
    | none => rfl
    | some j => rw [if_neg (by simp)]; rfl
  | some i =>
    cases j with
    | none => rw [if_neg (by simp)]; rfl
    | some j =>
      have hlt : i < s.memories.size := (Array.getElem?_eq_some_iff.mp h).1
      by_cases heq : j = i
      · subst heq
        rw [if_pos rfl]
        exact Array.getElem?_setIfInBounds_self_of_lt hlt
      · rw [if_neg (by simpa using heq)]
        exact Array.getElem?_setIfInBounds_ne (Ne.symm heq)

theorem setMemory_withScratches (s : Session) (m : Memory) (i : Option Nat)
    (scratches : Named (Owned Scratch)) : Session.setMemory { s with scratches } m i =
      { s.setMemory m i with scratches } := by cases i <;> rfl

@[simp]
theorem isSome_memory_setMemory (s : Session) (m : Memory) (i j : Option Nat) :
    ((s.setMemory m i).memory j).isSome = (s.memory j).isSome := by
  rcases i with _ | i <;> rcases j with _ | j <;> try rfl
  simp only [memory, Session.setMemory, Array.getElem?_setIfInBounds]
  split
  · next heq =>
    subst heq
    by_cases hlt : i < s.memories.size <;> simp [hlt]
  · rfl

section LetGo

variable {α : Type} {release : α → Memory → Memory} {o : Owned α}

theorem letGo_of_memory (h : s.memory o.memory = some m) :
    s.letGo release (some o) = s.setMemory (release o.value m) o.memory := by
  unfold letGo
  simp only [h]

theorem letGo_of_unknown (h : s.memory o.memory = none) : s.letGo release (some o) = s := by
  unfold letGo
  simp only [h]

end LetGo

@[simp]
theorem held_setMemory (s : Session) (m : Memory) (i j : Option Nat) :
    (s.setMemory m i).held j = s.held j := by
  unfold held
  rw [setMemory_streams, setMemory_scratches]

/-- A memory changes, and with it the blocks that are on the way. -/
theorem Accounts.setMemory {a b : List (Nat × Nat)} (h : s.Accounts (onlyIn i a))
    (hm : s.memory i = some m)
    (hchange : ∀ blocks, m.Holds (a ++ blocks) → m'.Holds (b ++ blocks)) :
    (s.setMemory m' i).Accounts (onlyIn i b) := by
  intro j m₀ hm₀
  rw [memory_setMemory hm] at hm₀
  rw [held_setMemory]
  by_cases heq : j = i
  · subst heq
    rw [if_pos rfl, Option.some.injEq] at hm₀
    subst hm₀
    have hbefore := h j m hm
    rw [onlyIn_self] at hbefore ⊢
    exact hchange _ hbefore
  · rw [if_neg heq] at hm₀
    have hbefore := h j m₀ hm₀
    rwa [onlyIn_of_ne heq] at hbefore ⊢

/-- A memory changes by what it hands out. -/
theorem Accounts.handOut {b : List (Nat × Nat)} (h : s.Accounts nowhere) (hm : s.memory i = some m)
    (hchange : ∀ blocks, m.Holds blocks → m'.Holds (b ++ blocks)) :
    (s.setMemory m' i).Accounts (onlyIn i b) := by
  rw [← onlyIn_nil i] at h
  exact h.setMemory hm fun blocks hb => hchange blocks hb

/-- What was replaced or dropped goes back to its memory. -/
theorem Accounts.letGo {α : Type} {used : α → List (Nat × Nat)} {release : α → Memory → Memory}
    {old : Option (Owned α)} (h : s.Accounts (heldBy used old))
    (hrelease : ∀ a m blocks, m.Holds (used a ++ blocks) → (release a m).Holds blocks) :
    (s.letGo release old).Accounts nowhere := by
  rcases old with _ | o
  · exact h
  rcases hm : s.memory o.memory with _ | m
  · -- Nobody knows the memory, so the blocks are not in any memory of the session.
    rw [letGo_of_unknown hm]
    intro i m hm'
    have hne : i ≠ o.memory := by
      rintro rfl
      rw [hm] at hm'
      cases hm'
    have hbefore := h i m hm'
    rwa [heldBy, Owned.held, onlyIn_of_ne hne] at hbefore
  · rw [letGo_of_memory hm, ← onlyIn_nil o.memory]
    exact Accounts.setMemory h hm fun blocks hb => hrelease o.value m blocks hb

/-! ## Streams and scratch spaces -/

/-- What is added and what is taken away change places. -/
theorem exchange_perm (added : List (Nat × Nat)) {all old rest : List (Nat × Nat)}
    (h : all.Perm (old ++ rest)) :
    (added ++ all).Perm (old ++ (added ++ rest)) :=
  (h.append_left added).trans (List.perm_append_comm_assoc added old rest)

section Named

variable {o : Owned Stream} {k : Owned Scratch}

theorem Accounts.eraseStream (h : s.Accounts nowhere) (ht : s.Tidy) (name : String) :
    Accounts { s with streams := s.streams.erase name }
      (heldBy Stream.used (s.streams.find? name)) := by
  intro i m hm
  refine (h i m hm).perm ?_
  have hperm := (Named.held_perm Stream.used ht.nodup_streams name i).append_right
    (s.scratches.held Scratch.used i)
  rwa [List.append_assoc] at hperm

/-- A stream takes the place of the one with its name. -/
theorem Accounts.insertStream (h : s.Accounts (o.held Stream.used)) (ht : s.Tidy) (name : String) :
    Accounts { s with streams := s.streams.insert name o }
      (heldBy Stream.used (s.streams.find? name)) := by
  intro i m hm
  refine (h i m hm).perm ?_
  rw [held, held, Named.held_insert, ← List.append_assoc, ← List.append_assoc]
  exact (exchange_perm _ (Named.held_perm Stream.used ht.nodup_streams name i)).append_right _

theorem Accounts.eraseScratch (h : s.Accounts nowhere) (ht : s.Tidy) (name : String) :
    Accounts { s with scratches := s.scratches.erase name }
      (heldBy Scratch.used (s.scratches.find? name)) := by
  intro i m hm
  refine (h i m hm).perm ?_
  exact exchange_perm (s.streams.held Stream.used i)
    (Named.held_perm Scratch.used ht.nodup_scratches name i)

/-- A scratch space takes the place of the one with its name. -/
theorem Accounts.insertScratch (h : s.Accounts (k.held Scratch.used)) (ht : s.Tidy)
    (name : String) : Accounts { s with scratches := s.scratches.insert name k }
      (heldBy Scratch.used (s.scratches.find? name)) := by
  intro i m hm
  refine (h i m hm).perm ?_
  rw [held, held, Named.held_insert]
  have hperm := exchange_perm (k.held Scratch.used i)
    (Named.held_perm Scratch.used ht.nodup_scratches name i)
  exact (List.perm_append_comm_assoc _ _ _).trans (exchange_perm _ hperm)

theorem Tidy.setMemory (h : s.Tidy) (m : Memory) (i : Option Nat) : (s.setMemory m i).Tidy := by
  refine ⟨?_, ?_, ?_, ?_, ?_⟩
  · rw [setMemory_streams]
    exact h.nodup_streams
  · rw [setMemory_scratches]
    exact h.nodup_scratches
  · simp only [setMemory_streams, isSome_memory_setMemory]
    exact h.streams_known
  · simp only [setMemory_scratches, isSome_memory_setMemory]
    exact h.scratches_known
  · rw [setMemory_streams]
    exact h.sizes

theorem Tidy.letGo (h : s.Tidy) {α : Type} (release : α → Memory → Memory)
    (old : Option (Owned α)) : (s.letGo release old).Tidy := by
  unfold Session.letGo
  split
  · exact h
  · split
    · exact h.setMemory _ _
    · exact h

theorem Tidy.eraseStream (h : s.Tidy) (name : String) :
    Tidy { s with streams := s.streams.erase name } :=
  ⟨Named.nodup_erase h.nodup_streams name, h.nodup_scratches,
    fun v hv => h.streams_known v (List.mem_of_mem_filter hv), h.scratches_known,
    fun v hv => h.sizes v (List.mem_of_mem_filter hv)⟩

theorem Tidy.insertStream (h : s.Tidy) (name : String) (hmemory : (s.memory o.memory).isSome)
    (hsize : o.value.state.size = o.value.program.streamSize) :
    Tidy { s with streams := s.streams.insert name o } :=
  ⟨Named.nodup_insert h.nodup_streams name o, h.nodup_scratches,
    List.forall_mem_cons.mpr ⟨hmemory, (h.eraseStream name).streams_known⟩, h.scratches_known,
    List.forall_mem_cons.mpr ⟨hsize, (h.eraseStream name).sizes⟩⟩

theorem Tidy.eraseScratch (h : s.Tidy) (name : String) :
    Tidy { s with scratches := s.scratches.erase name } :=
  ⟨h.nodup_streams, Named.nodup_erase h.nodup_scratches name, h.streams_known,
    fun v hv => h.scratches_known v (List.mem_of_mem_filter hv), h.sizes⟩

theorem Tidy.insertScratch (h : s.Tidy) (name : String) (hmemory : (s.memory k.memory).isSome) :
    Tidy { s with scratches := s.scratches.insert name k } :=
  ⟨h.nodup_streams, Named.nodup_insert h.nodup_scratches name k, h.streams_known,
    List.forall_mem_cons.mpr ⟨hmemory, (h.eraseScratch name).scratches_known⟩, h.sizes⟩

end Named

end Session

end StreamMatch
