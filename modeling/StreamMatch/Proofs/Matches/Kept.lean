-- Which matches are reported: in the order of their keys, those whose pattern
-- was not reported yet with the same end, and was not reported at all if only
-- its first match counts. The entries of the patterns tell it from the last
-- match of each pattern alone.
import Mathlib.Data.List.Induction
import StreamMatch.Proofs.Key
import StreamMatch.Proofs.Matches.Raw
import StreamMatch.Scan.Progress

namespace StreamMatch

namespace Program

variable (p : Program)

/-- The flags of a pattern. -/
def flagsOf (id : PatternId) : PatternFlags := (p.patterns[id.toNat]?.map Pattern.flags).getD {}

/-- A match that is reported keeps another one, which goes after it, from being
reported. -/
def hides (m earlier : RawMatch) : Bool :=
  earlier.pattern == m.pattern &&
    ((p.flagsOf m.pattern).singleMatch || earlier.key.endsAt == m.key.endsAt)

/-- The matches that are reported, when one more match follows. -/
def keepOne (kept : List RawMatch) (m : RawMatch) : List RawMatch :=
  if kept.any (p.hides m) then kept else kept ++ [m]

/-- Of matches in the order of their keys, those that are reported. -/
def kept (ms : List RawMatch) : List RawMatch := ms.foldl p.keepOne []

/-- How a match is reported. -/
def eventOf (m : RawMatch) : Event :=
  ⟨m.pattern, if (p.flagsOf m.pattern).noStart then none else some m.startsAt, m.key.endsAt⟩

/-- The events of matches in the order of their keys. -/
def eventsOf (ms : List RawMatch) : List Event := (p.kept ms).map p.eventOf

/-- What is remembered about a pattern after some matches were reported. -/
def entryAfter (reported : List RawMatch) (i : Nat) : PatternEntry :=
  let own := reported.filter fun m => m.pattern.toNat == i
  ⟨own.getLast?.map (·.key.endsAt), !own.isEmpty && (p.flagsOf (.ofNat i)).singleMatch⟩

variable {p} {ms : List RawMatch} {m : RawMatch}

theorem kept_append (ms : List RawMatch) (m : RawMatch) :
    p.kept (ms ++ [m]) = p.keepOne (p.kept ms) m := by
  unfold kept
  rw [List.foldl_append]
  rfl

theorem kept_sublist (ms : List RawMatch) : (p.kept ms).Sublist ms := by
  induction ms using List.reverseRecOn with
  | nil => exact List.Sublist.refl _
  | append_singleton ms m ih =>
    rw [kept_append, keepOne]
    split
    · exact ih.trans (List.sublist_append_left ms [m])
    · exact ih.append (List.Sublist.refl [m])

/-- The matches that follow do not change which of those before are reported. -/
theorem exists_kept_append (ms rest : List RawMatch) :
    ∃ more, p.kept (ms ++ rest) = p.kept ms ++ more ∧ more.Sublist rest := by
  induction rest using List.reverseRecOn with
  | nil => exact ⟨[], by simp, List.Sublist.refl _⟩
  | append_singleton rest m ih =>
    obtain ⟨more, hmore, hsub⟩ := ih
    rw [← List.append_assoc, kept_append, keepOne, hmore]
    split
    · exact ⟨more, rfl, hsub.trans (List.sublist_append_left rest [m])⟩
    · exact ⟨more ++ [m], List.append_assoc _ _ _, hsub.append (List.Sublist.refl [m])⟩

/-- The events of the first matches come first. -/
theorem eventsOf_prefix {all : List RawMatch} (h : ms <+: all) :
    p.eventsOf ms <+: p.eventsOf all := by
  obtain ⟨rest, rfl⟩ := h
  obtain ⟨more, hmore, -⟩ := p.exists_kept_append ms rest
  refine ⟨more.map p.eventOf, ?_⟩
  unfold eventsOf
  rw [hmore, List.map_append]

theorem eventsOf_of_hidden (h : (p.kept ms).any (p.hides m) = true) :
    p.eventsOf (ms ++ [m]) = p.eventsOf ms := by
  unfold eventsOf
  rw [kept_append, keepOne, if_pos h]

theorem eventsOf_of_not_hidden (h : (p.kept ms).any (p.hides m) = false) :
    p.eventsOf (ms ++ [m]) = p.eventsOf ms ++ [p.eventOf m] := by
  unfold eventsOf
  rw [kept_append, keepOne, if_neg (by simp [h]), List.map_append]
  rfl

theorem toNat_beq (a b : PatternId) : (a.toNat == b.toNat) = (a == b) := by
  rw [Bool.eq_iff_iff, beq_iff_eq, beq_iff_eq]
  constructor
  · intro h
    rw [← Id.ofNat_toNat a, h, Id.ofNat_toNat]
  · intro h
    rw [h]

/-- Of the matches of a pattern, the last one is enough to know whether one more
match of the pattern is reported. -/
theorem any_hides_eq {own : List RawMatch} {last : RawMatch} (single : Bool)
    (hle : ∀ k ∈ own, k.key ≤ last.key) (hlt : last.key < m.key) :
    (own ++ [last]).any (fun k => single || k.key.endsAt == m.key.endsAt) =
      (single || last.key.endsAt == m.key.endsAt) := by
  rw [List.any_append, List.any_cons, List.any_nil, Bool.or_false]
  by_cases h : (single || last.key.endsAt == m.key.endsAt) = true
  · rw [h, Bool.or_true]
  · rw [Bool.not_eq_true] at h
    rw [h, Bool.or_false, List.any_eq_false]
    intro k hk
    have hkl := Key.endsAt_le (hle k hk)
    have hlm := Key.endsAt_le (le_of_lt hlt)
    simp only [Bool.or_eq_false_iff, beq_eq_false_iff_ne] at h
    simp only [h.1, Bool.false_or, beq_iff_eq]
    omega

/-- The entry of a pattern tells whether one more match is reported. -/
theorem isRedundant_entryAfter {reported : List RawMatch}
    (hsorted : (reported ++ [m]).Pairwise fun a b => a.key < b.key) :
    Scan.isRedundant (p.entryAfter reported m.pattern.toNat) m.key.endsAt =
      reported.any (p.hides m) := by
  obtain ⟨hpair, -, hlast⟩ := List.pairwise_append.mp hsorted
  have hany : reported.any (p.hides m) = (reported.filter fun k => k.pattern == m.pattern).any
      fun k => (p.flagsOf m.pattern).singleMatch || k.key.endsAt == m.key.endsAt := by
    rw [List.any_filter]
    rfl
  have hmem : ∀ k ∈ reported.filter fun k => k.pattern == m.pattern, k.key < m.key :=
    fun k hk => hlast k (List.mem_of_mem_filter hk) m (List.mem_singleton_self m)
  rw [hany]
  unfold Scan.isRedundant entryAfter
  simp only [Id.ofNat_toNat, toNat_beq]
  have hown := hpair.filter fun k : RawMatch => k.pattern == m.pattern
  generalize (reported.filter fun k => k.pattern == m.pattern) = own at *
  rcases List.eq_nil_or_concat own with rfl | ⟨before, last, rfl⟩
  · rfl
  · rw [List.concat_eq_append] at hown hmem ⊢
    obtain ⟨-, -, hlt⟩ := List.pairwise_append.mp hown
    have hbefore : ∀ k ∈ before, k.key ≤ last.key := fun k hk =>
      le_of_lt (hlt k hk last (List.mem_singleton_self last))
    have hne : (before ++ [last]).isEmpty = false := by
      cases before <;> rfl
    rw [any_hides_eq _ hbefore (hmem last (by simp)), hne]
    simp

/-- A match that is reported changes the entry of its pattern alone. -/
theorem entryAfter_append (reported : List RawMatch) (m : RawMatch) (i : Nat) :
    p.entryAfter (reported ++ [m]) i =
      if m.pattern.toNat = i then
        ⟨some m.key.endsAt, (p.flagsOf m.pattern).singleMatch⟩
      else p.entryAfter reported i := by
  unfold entryAfter
  rw [List.filter_append]
  split
  · next h => simp [← h, Id.ofNat_toNat]
  · next h => simp [h]

/-! ## One match after the other -/

/-- The first match that was not reported goes after those that were. -/
theorem append_prefix {all ms : List RawMatch} (hsorted : all.Pairwise fun a b => a.key < b.key)
    (hpre : ms <+: all) (hm : m ∈ all) (hnot : m ∉ ms)
    (hleast : ∀ a ∈ all, a ∉ ms → m.key ≤ a.key) : ms ++ [m] <+: all := by
  obtain ⟨rest, rfl⟩ := hpre
  have hrest : m ∈ rest := (List.mem_append.mp hm).resolve_left hnot
  obtain ⟨-, hpair, hbefore⟩ := List.pairwise_append.mp hsorted
  rcases rest with _ | ⟨next, rest⟩
  · exact absurd hrest List.not_mem_nil
  · have hnext : next ∉ ms := fun h =>
      absurd (hbefore next h next List.mem_cons_self) (lt_irrefl next.key)
    have hle := hleast next (by simp) hnext
    rcases List.mem_cons.mp hrest with rfl | hin
    · exact ⟨rest, by simp⟩
    · exact absurd (List.rel_of_pairwise_cons hpair hin) (not_lt_of_ge hle)

end Program

end StreamMatch
