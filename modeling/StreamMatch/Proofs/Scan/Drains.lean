-- Taking pending matches out of the states of the repeats, the one that goes first before
-- the others. Those before a key come out in the order of their keys, each of them once, and
-- all the others stay.
import Mathlib.Data.Finset.Max
import StreamMatch.Proofs.Repeat.RunState
import StreamMatch.Proofs.Scan.Core

namespace StreamMatch.Scan

open Bytes

variable {s : Scan} {limit : Key} {states states' states'' : Repeat → RunState} {r r' : Repeat}
  {m m' : Run} {handed rest : List (Repeat × Run)}

/-- No pending match goes before a key. -/
def Waits (s : Scan) (states : Repeat → RunState) (limit : Key) : Prop :=
  ∀ r ∈ s.program.repeats, ∀ m, (states r).pending = some m → limit ≤ m.key

/-- Pending matches of different repeats have different keys. -/
def Distinct (s : Scan) (states : Repeat → RunState) : Prop :=
  ∀ r ∈ s.program.repeats, ∀ r' ∈ s.program.repeats, ∀ m m', (states r).pending = some m →
    (states r').pending = some m' → m.key = m'.key → r = r'

/-- Some of the pending matches before a key are taken out of the states, each of them when
it goes before all that are left. -/
inductive Drains (s : Scan) (limit : Key) :
    (Repeat → RunState) → List (Repeat × Run) → (Repeat → RunState) → Prop where
  | nil (states : Repeat → RunState) : Drains s limit states [] states
  | cons {states states' : Repeat → RunState} {r : Repeat} {m : Run} {handed : List (Repeat × Run)}
      (mem : r ∈ s.program.repeats) (pending_eq : (states r).pending = some m)
      (least : s.Waits states m.key) (before : m.key < limit)
      (rest : Drains s limit (Function.update states r (states r).take) handed states') :
      Drains s limit states ((r, m) :: handed) states'

/-- The pending matches before a key, in the order in which they are to be reported. -/
structure Due (s : Scan) (limit : Key) (states : Repeat → RunState) (due : List (Repeat × Run)) :
    Prop where
  sorted : due.Pairwise fun a b => a.2.key < b.2.key
  mem_iff : ∀ r m, (r, m) ∈ due ↔
    r ∈ s.program.repeats ∧ (states r).pending = some m ∧ m.key < limit

/-! ## No match -/

section NoMatch

variable (hcount : 0 = s.program.repeats.toList.countP fun r => (states r).pending.isSome)

include hcount

theorem pending_eq_none_of_count (hr : r ∈ s.program.repeats) : (states r).pending = none := by
  have hzero := List.countP_eq_zero.mp hcount.symm r (Array.mem_toList_iff.mpr hr)
  simpa using hzero

theorem counts_none_of_count : Pending.none.Counts s.program.repeats.toList states := by
  refine ⟨hcount, fun r hr m hm => ?_⟩
  rw [pending_eq_none_of_count hcount (Array.mem_toList_iff.mp hr)] at hm
  cases hm

theorem waits_of_count (limit : Key) : s.Waits states limit := by
  intro r hr m hm
  rw [pending_eq_none_of_count hcount hr] at hm
  cases hm

end NoMatch

/-! ## One match -/

theorem pending_take_iff : (Function.update states r (states r).take r').pending = some m ↔
    r' ≠ r ∧ (states r').pending = some m := by
  by_cases heq : r' = r
  · subst heq
    rw [Function.update_self, RunState.take]
    simp
  · rw [Function.update_of_ne heq]
    simp [heq]

theorem Distinct.take (h : s.Distinct states) (r : Repeat) :
    s.Distinct (Function.update states r (states r).take) := by
  intro r₁ hr₁ r₂ hr₂ m₁ m₂ hm₁ hm₂
  exact h r₁ hr₁ r₂ hr₂ m₁ m₂ (pending_take_iff.mp hm₁).2 (pending_take_iff.mp hm₂).2

/-- If matches are pending, one of them goes before all the others. -/
theorem exists_least (hr : r ∈ s.program.repeats) (hm : (states r).pending = some m) :
    ∃ r' ∈ s.program.repeats, ∃ m', (states r').pending = some m' ∧ s.Waits states m'.key := by
  classical
  let key (r : Repeat) : Key := ((states r).pending.map Run.key).getD .last
  obtain ⟨r', hr', hleast⟩ := Finset.exists_min_image
    (s.program.repeats.toList.filter fun r => (states r).pending.isSome).toFinset key
    ⟨r, by simp [hr, hm]⟩
  simp only [List.mem_toFinset, List.mem_filter, Array.mem_toList_iff] at hr' hleast
  obtain ⟨m', hm'⟩ := Option.isSome_iff_exists.mp hr'.2
  refine ⟨r', hr'.1, m', hm', fun r₂ hr₂ m₂ hm₂ => ?_⟩
  have hle := hleast r₂ ⟨hr₂, by simp [hm₂]⟩
  simpa [key, hm', hm₂] using hle

/-! ## All of them -/

namespace Drains

theorem append (h : s.Drains limit states handed states')
    (h' : s.Drains limit states' rest states'') :
    s.Drains limit states (handed ++ rest) states'' := by
  induction h with
  | nil => exact h'
  | cons hr hm hleast hlt _ ih => exact .cons hr hm hleast hlt (ih h')

theorem of_mem (h : s.Drains limit states handed states') (hin : (r, m) ∈ handed) :
    r ∈ s.program.repeats ∧ (states r).pending = some m ∧ m.key < limit := by
  induction h with
  | nil => exact absurd hin List.not_mem_nil
  | cons hr hm _ hlt _ ih =>
    rcases List.mem_cons.mp hin with heq | hin
    · cases heq
      exact ⟨hr, hm, hlt⟩
    · obtain ⟨hr', hm', hlt'⟩ := ih hin
      exact ⟨hr', (pending_take_iff.mp hm').2, hlt'⟩

/-- The matches that were not taken out stay as they are. -/
theorem pending_iff (h : s.Drains limit states handed states') :
    (states' r).pending = some m ↔ (states r).pending = some m ∧ (r, m) ∉ handed := by
  induction h with
  | nil => simp
  | @cons states _ r₀ m₀ _ _ hm₀ _ _ _ ih =>
    rw [ih, pending_take_iff, List.mem_cons, Prod.mk.injEq, not_or]
    by_cases heq : r = r₀
    · subst heq
      rw [hm₀, Option.some.injEq]
      simp only [ne_eq, not_true_eq_false, false_and, true_and, false_iff]
      rintro ⟨rfl, hne, -⟩
      exact hne rfl
    · simp [heq]

theorem sorted (h : s.Drains limit states handed states') (hdistinct : s.Distinct states) :
    handed.Pairwise fun a b => a.2.key < b.2.key := by
  induction h with
  | nil => exact .nil
  | @cons states _ r₀ m₀ _ hr₀ hm₀ hleast _ hrest ih =>
    refine .cons (fun b hb => ?_) (ih (hdistinct.take r₀))
    obtain ⟨hr, hm, -⟩ := hrest.of_mem hb
    obtain ⟨hne, hm⟩ := pending_take_iff.mp hm
    refine lt_of_le_of_ne (hleast b.1 hr b.2 hm) fun hkey => hne ?_
    exact (hdistinct r₀ hr₀ b.1 hr m₀ b.2 hm₀ hm hkey).symm

/-- The order goes on until no match before the key is left. -/
theorem exists_rest (hnodup : s.program.repeats.toList.Nodup) (limit : Key)
    (states : Repeat → RunState) :
    ∃ handed states', s.Drains limit states handed states' ∧ s.Waits states' limit := by
  induction hn : s.program.repeats.toList.countP (fun r => (states r).pending.isSome)
    generalizing states with
  | zero => exact ⟨[], states, .nil states, waits_of_count hn.symm limit⟩
  | succ n ih =>
    by_cases hwaits : s.Waits states limit
    · exact ⟨[], states, .nil states, hwaits⟩
    · simp only [Waits, not_forall, not_le] at hwaits
      obtain ⟨r₁, hr₁, m₁, hm₁, hlt⟩ := hwaits
      obtain ⟨r, hr, m, hm, hleast⟩ := exists_least hr₁ hm₁
      have hcount := Pending.countP_take hnodup (Array.mem_toList_iff.mpr hr) hm
      obtain ⟨handed, states', hdrains, hrest⟩ :=
        ih (Function.update states r (states r).take) (by omega)
      exact ⟨_, states', .cons hr hm hleast (lt_of_le_of_lt (hleast r₁ hr₁ m₁ hm₁) hlt) hdrains,
        hrest⟩

/-- What was taken out is an initial part of what was to be taken out, and all of it if nothing
is left. -/
theorem exists_due (h : s.Drains limit states handed states') (hdistinct : s.Distinct states)
    (hnodup : s.program.repeats.toList.Nodup) :
    ∃ due, s.Due limit states due ∧ handed <+: due ∧ (s.Waits states' limit → handed = due) := by
  obtain ⟨rest, states'', hrest, hwaits⟩ := exists_rest hnodup limit states'
  have hall := h.append hrest
  refine ⟨handed ++ rest, ⟨hall.sorted hdistinct, fun r m => ⟨hall.of_mem, ?_⟩⟩,
    List.prefix_append _ _, fun hdone => ?_⟩
  · rintro ⟨hr, hm, hlt⟩
    refine Decidable.byContradiction fun hnot => ?_
    have hstays := hall.pending_iff.mpr ⟨hm, hnot⟩
    exact absurd hlt (not_lt_of_ge (hwaits r hr m hstays))
  · cases hrest with
    | nil => rw [List.append_nil]
    | cons hr hm _ hlt _ => exact absurd hlt (not_lt_of_ge (hdone _ hr _ hm))

end Drains

end StreamMatch.Scan
