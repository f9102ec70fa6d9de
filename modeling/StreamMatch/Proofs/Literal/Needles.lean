-- Each literal belongs to one needle, the one that has its bytes.
import Mathlib.Data.List.Nodup
import StreamMatch.Literal.Table

namespace StreamMatch.Needle

/-! ## Collecting literals -/

/-- A literal that is added belongs to one of the needles, and no other literal
changes. -/
theorem flatMap_addTo_perm (found : List Needle) (bytes : Bytes) (id : LiteralId) :
    ((addTo found bytes id).flatMap Needle.literals).Perm
      (id :: found.flatMap Needle.literals) := by
  induction found with
  | nil => simp [addTo]
  | cons n rest ih =>
    rw [addTo]
    split
    · simp
    · rw [List.flatMap_cons, List.flatMap_cons]
      exact (List.Perm.append_left _ ih).trans List.perm_middle

theorem flatMap_collect_perm (found : List Needle) (i : Nat) (literals : List Bytes) :
    ((collect found i literals).flatMap Needle.literals).Perm
      ((List.range' i literals.length).map Id.ofNat ++ found.flatMap Needle.literals) := by
  induction literals generalizing found i with
  | nil => simp [collect]
  | cons bytes rest ih =>
    rw [collect, List.length_cons, List.range'_succ, List.map_cons, List.cons_append]
    refine (ih _ _).trans ?_
    exact (List.Perm.append_left _ (flatMap_addTo_perm found bytes _)).trans List.perm_middle

/-- The literals of each needle have the bytes of the needle. -/
def AllHave (all : List Bytes) (found : List Needle) : Prop :=
  ∀ n ∈ found, ∀ id ∈ n.literals, all[id.toNat]? = some n.bytes

theorem AllHave.addTo {all : List Bytes} {found : List Needle} {bytes : Bytes} {id : LiteralId}
    (h : AllHave all found) (hid : all[id.toNat]? = some bytes) :
    AllHave all (addTo found bytes id) := by
  induction found with
  | nil =>
    rintro n hn i hi
    rw [Needle.addTo, List.mem_singleton] at hn
    subst hn
    rw [List.mem_singleton] at hi
    rwa [hi]
  | cons m rest ih =>
    have hrest : AllHave all rest := fun n hn => h n (List.mem_cons_of_mem m hn)
    rw [Needle.addTo]
    split
    · next heq =>
      intro n hn i hi
      rcases List.mem_cons.mp hn with rfl | hn
      · rcases List.mem_cons.mp hi with rfl | hi
        · rw [hid, heq]
        · exact h m List.mem_cons_self i hi
      · exact hrest n hn i hi
    · intro n hn i hi
      rcases List.mem_cons.mp hn with rfl | hn
      · exact h n List.mem_cons_self i hi
      · exact ih hrest n hn i hi

theorem AllHave.collect {all : List Bytes} {found : List Needle} {i : Nat} {literals : List Bytes}
    (h : AllHave all found) (hsize : all.length ≤ 0x100000000)
    (hall : ∀ j bytes, literals[j]? = some bytes → all[i + j]? = some bytes) :
    AllHave all (collect found i literals) := by
  induction literals generalizing found i with
  | nil => exact h
  | cons bytes rest ih =>
    have hfirst := hall 0 bytes rfl
    rw [Nat.add_zero] at hfirst
    have hlt := (List.getElem?_eq_some_iff.mp hfirst).1
    refine ih (h.addTo ?_) ?_
    · rwa [Id.toNat_ofNat_of_lt (by omega)]
    · intro j b hj
      rw [show i + 1 + j = i + (j + 1) by omega]
      exact hall (j + 1) b hj

theorem bytes_of_mem_addTo {found : List Needle} {bytes : Bytes} {id : LiteralId} {n : Needle}
    (h : n ∈ addTo found bytes id) : n.bytes = bytes ∨ ∃ m ∈ found, n.bytes = m.bytes := by
  induction found with
  | nil =>
    rw [addTo, List.mem_singleton] at h
    exact Or.inl (congrArg Needle.bytes h)
  | cons m rest ih =>
    rw [addTo] at h
    split at h
    · rcases List.mem_cons.mp h with rfl | h
      · exact Or.inr ⟨m, List.mem_cons_self, rfl⟩
      · exact Or.inr ⟨n, List.mem_cons_of_mem m h, rfl⟩
    · rcases List.mem_cons.mp h with rfl | h
      · exact Or.inr ⟨n, List.mem_cons_self, rfl⟩
      · rcases ih h with hb | ⟨m', hm', hb⟩
        · exact Or.inl hb
        · exact Or.inr ⟨m', List.mem_cons_of_mem m hm', hb⟩

theorem bytes_of_mem_collect {found : List Needle} {i : Nat} {literals : List Bytes} {n : Needle}
    (h : n ∈ collect found i literals) :
    n.bytes ∈ literals ∨ ∃ m ∈ found, n.bytes = m.bytes := by
  induction literals generalizing found i with
  | nil => exact Or.inr ⟨n, h, rfl⟩
  | cons bytes rest ih =>
    rcases ih h with hb | ⟨m, hm, hb⟩
    · exact Or.inl (List.mem_cons_of_mem bytes hb)
    · rcases bytes_of_mem_addTo hm with hm | hm
      · exact Or.inl (by rw [hb, hm]; exact List.mem_cons_self)
      · exact Or.inr (by rwa [hb])

/-- The needles stay different when a literal is added. -/
theorem nodup_bytes_addTo {found : List Needle} (bytes : Bytes) (id : LiteralId)
    (h : (found.map Needle.bytes).Nodup) : ((addTo found bytes id).map Needle.bytes).Nodup := by
  induction found with
  | nil => exact List.nodup_singleton bytes
  | cons n rest ih =>
    rw [List.map_cons, List.nodup_cons] at h
    obtain ⟨hnew, hrest⟩ := h
    rw [addTo]
    split
    · rw [List.map_cons]
      exact List.nodup_cons.mpr ⟨hnew, hrest⟩
    · next hne =>
      rw [List.map_cons]
      refine List.nodup_cons.mpr ⟨fun hmem => ?_, ih hrest⟩
      obtain ⟨m, hm, hbytes⟩ := List.mem_map.mp hmem
      rcases bytes_of_mem_addTo hm with heq | ⟨m', hm', heq⟩
      · exact hne (hbytes.symm.trans heq)
      · exact hnew (hbytes ▸ heq ▸ List.mem_map_of_mem hm')

theorem nodup_bytes_collect {found : List Needle} (i : Nat) (literals : List Bytes)
    (h : (found.map Needle.bytes).Nodup) : ((collect found i literals).map Needle.bytes).Nodup := by
  induction literals generalizing found i with
  | nil => exact h
  | cons bytes rest ih => exact ih _ (nodup_bytes_addTo bytes _ h)

/-! ## The needles of some literals -/

variable {literals : List Bytes}

/-- No two needles have the same bytes. -/
theorem nodup_bytes_ofLiterals (literals : List Bytes) :
    ((ofLiterals literals).map Needle.bytes).Nodup := by
  unfold ofLiterals
  rw [List.map_map]
  exact nodup_bytes_collect 0 literals List.nodup_nil

/-- Each literal belongs to one needle. -/
theorem flatMap_ofLiterals_perm (literals : List Bytes) :
    ((ofLiterals literals).flatMap Needle.literals).Perm
      ((List.range literals.length).map Id.ofNat) := by
  have hreverse : ∀ found : List Needle,
      ((found.map fun n => (⟨n.bytes, n.literals.reverse⟩ : Needle)).flatMap Needle.literals).Perm
        (found.flatMap Needle.literals) := by
    intro found
    induction found with
    | nil => exact List.Perm.refl _
    | cons n rest ih =>
      rw [List.map_cons, List.flatMap_cons, List.flatMap_cons]
      exact (List.reverse_perm n.literals).append ih
  refine (hreverse _).trans ((flatMap_collect_perm [] 0 literals).trans ?_)
  rw [List.flatMap_nil, List.append_nil, List.range_eq_range']

theorem nodup_flatMap_ofLiterals (h : literals.length ≤ 0x100000000) :
    ((ofLiterals literals).flatMap Needle.literals).Nodup := by
  rw [(flatMap_ofLiterals_perm literals).nodup_iff]
  unfold List.Nodup
  rw [List.pairwise_map]
  refine List.Pairwise.imp_of_mem ?_ List.nodup_range
  intro i j hi hj hne heq
  rw [List.mem_range] at hi hj
  apply hne
  have hi' : (.ofNat i : LiteralId).toNat = i := Id.toNat_ofNat_of_lt (by omega)
  rw [← hi', heq, Id.toNat_ofNat_of_lt (by omega)]

/-- A literal belongs to the needle that has its bytes. -/
theorem mem_literals_ofLiterals (h : literals.length ≤ 0x100000000) {n : Needle} {id : LiteralId}
    (hn : n ∈ ofLiterals literals) (hid : id ∈ n.literals) :
    literals[id.toNat]? = some n.bytes := by
  obtain ⟨m, hm, rfl⟩ := List.mem_map.mp hn
  have hall : AllHave literals (collect [] 0 literals) := by
    refine AllHave.collect (fun n hn => absurd hn List.not_mem_nil) h ?_
    intro j bytes hj
    rwa [Nat.zero_add]
  exact hall m hm id (List.mem_reverse.mp hid)

/-- No literal belongs to two needles. -/
theorem eq_of_mem_literals (h : literals.length ≤ 0x100000000) {m n : Needle} {id : LiteralId}
    (hm : m ∈ ofLiterals literals) (hn : n ∈ ofLiterals literals) (hidm : id ∈ m.literals)
    (hidn : id ∈ n.literals) : m = n := by
  have hbytes := mem_literals_ofLiterals h hm hidm
  rw [mem_literals_ofLiterals h hn hidn, Option.some.injEq] at hbytes
  exact List.inj_on_of_nodup_map (nodup_bytes_ofLiterals literals) hm hn hbytes.symm

/-- A needle has the bytes of some literal. -/
theorem bytes_mem_of_mem_ofLiterals {n : Needle} (h : n ∈ ofLiterals literals) :
    n.bytes ∈ literals := by
  obtain ⟨m, hm, rfl⟩ := List.mem_map.mp h
  rcases bytes_of_mem_collect hm with hb | ⟨m', hm', -⟩
  · exact hb
  · exact absurd hm' List.not_mem_nil

theorem exists_needle {id : LiteralId} (h : literals.length ≤ 0x100000000)
    (hid : id.toNat < literals.length) :
    ∃ n ∈ ofLiterals literals, id ∈ n.literals ∧ literals[id.toNat]? = some n.bytes := by
  have hmem : id ∈ (ofLiterals literals).flatMap Needle.literals := by
    rw [(flatMap_ofLiterals_perm literals).mem_iff, List.mem_map]
    exact ⟨id.toNat, List.mem_range.mpr hid, Id.ofNat_toNat id⟩
  obtain ⟨n, hn, hidn⟩ := List.mem_flatMap.mp hmem
  exact ⟨n, hn, hidn, mem_literals_ofLiterals h hn hidn⟩

end StreamMatch.Needle
