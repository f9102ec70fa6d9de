-- An automaton never fails, wherever the window that it sees starts. It gives no verdict
-- only if bytes that it can reach may follow the window.
import StreamMatch.Proofs.Automaton.Window

namespace StreamMatch.Window

open Bytes Checked

variable {w : Window} {reach : Reach} {lo hi pos : Int} {least most start : Nat}

/-- A match takes between `least` and `most` bytes, and only missing bytes leave it open. -/
structure Decides (w : Window) (hi : Int) (least most : Nat) (r : Outcome × Nat) : Prop where
  bounds : r.1 = .matched → least ≤ r.2 ∧ r.2 ≤ most
  lacks : r.1 = .incomplete → w.Lacks hi

theorem Decides.of_failed (w : Window) (hi : Int) (least most n : Nat) :
    w.Decides hi least most (.failed, n) :=
  ⟨fun h => (by cases h), fun h => by cases h⟩

/-! ## Bytes and ends -/

theorem missing_decides {n : Nat} (hstop : (w.stop : Int) < hi) :
    w.Decides hi n n (w.missing, n) := by
  unfold missing
  by_cases hend : w.atEnd = true
  · rw [if_pos hend]
    exact .of_failed w hi n n n
  · rw [if_neg hend]
    exact ⟨fun h => (by cases h), fun _ => ⟨by simpa using hend, hstop⟩⟩

theorem matchAt_decides (hw : w.Fits) {literal : Bytes} {mask : Option Bytes}
    (hhi : pos + literal.size ≤ hi) (hpos : pos < 0x5000000000000000)
    (hmask : ∀ m, mask = some m → m.size = literal.size) :
    Succeeds (w.Decides hi literal.size literal.size)
      (do return (← w.matchAt pos literal mask, literal.size)) := by
  by_cases hbefore : pos < w.base
  · rw [matchAt_before literal mask hw hbefore]
    exact .of_ok (.of_failed w hi _ _ _)
  · obtain ⟨p, rfl⟩ : ∃ p : Nat, pos = p := ⟨pos.toNat, by omega⟩
    rw [matchAt_eq hw (by omega) (by omega) hmask]
    refine .of_ok ?_
    split
    · split
      · next hcut =>
        refine missing_decides ?_
        unfold inside at hcut
        unfold stop
        omega
      · exact ⟨fun _ => ⟨Nat.le_refl _, Nat.le_refl _⟩, fun h => by cases h⟩
    · exact .of_failed w hi _ _ _

theorem matchByte_decides (hw : w.Fits) {holds : UInt8 → Bool} (hhi : pos + 1 ≤ hi)
    (hpos : pos < 0x5000000000000000) :
    Succeeds (w.Decides hi 1 1) (do return (← w.matchByte pos holds, 1)) := by
  rw [matchByte_eq hw hpos]
  refine .of_ok ?_
  split
  · exact .of_failed w hi _ _ _
  · split
    · exact missing_decides (by omega)
    · split
      · exact ⟨fun _ => ⟨Nat.le_refl _, Nat.le_refl _⟩, fun h => by cases h⟩
      · exact .of_failed w hi _ _ _

theorem matchEnd_decides (hw : w.Fits) (hhi : pos + 1 ≤ hi) :
    Succeeds (w.Decides hi 0 0) (do return (← w.matchEnd pos, 0)) := by
  rw [matchEnd_eq hw]
  refine .of_ok ?_
  split
  · exact .of_failed w hi _ _ _
  · by_cases hend : w.atEnd = true
    · rw [if_pos hend]
      refine ⟨fun _ => ⟨Nat.le_refl _, Nat.le_refl _⟩, fun h => ?_⟩
      simp only at h
      split at h <;> cases h
    · rw [if_neg hend]
      exact ⟨fun h => (by cases h), fun _ => ⟨by simpa using hend, by omega⟩⟩

/-! ## Choices and directives -/

theorem matchChoice_decides (hw : w.Fits) {c : Alternative} (hhi : pos + most ≤ hi)
    (hpos : pos < 0x5000000000000000) (hwhole : c.IsWhole) (hsize : c.size ≤ most) :
    Succeeds (w.Decides hi c.size c.size) (w.matchChoice pos c) := by
  cases c with
  | literal bs =>
    unfold Alternative.size at hsize
    simp only at hsize
    exact matchAt_decides hw (by omega) hpos (by simp)
  | masked bs mask =>
    unfold Alternative.size at hsize
    unfold Alternative.IsWhole at hwhole
    simp only at hsize hwhole
    refine matchAt_decides hw (by omega) hpos ?_
    rintro m ⟨⟩
    exact hwhole

theorem matchFirst_decides (hw : w.Fits) {choices : List Alternative} (hhi : pos + most ≤ hi)
    (hpos : pos < 0x5000000000000000)
    (h : ∀ c ∈ choices, c.IsWhole ∧ least ≤ c.size ∧ c.size ≤ most) :
    Succeeds (w.Decides hi least most) (w.matchFirst pos choices) := by
  induction choices with
  | nil => exact .of_ok (.of_failed w hi _ _ _)
  | cons c rest ih =>
    obtain ⟨hwhole, hleast, hmost⟩ := h c List.mem_cons_self
    refine (matchChoice_decides hw hhi hpos hwhole hmost).bind ?_
    rintro ⟨o, n⟩ ⟨hbounds, hlacks⟩
    cases o with
    | failed => exact ih fun c' hc' => h c' (List.mem_cons_of_mem c hc')
    | matched =>
      refine .of_ok ⟨fun hm => ?_, fun h => by cases h⟩
      have hn := hbounds hm
      simp only at hn ⊢
      omega
    | incomplete => exact .of_ok ⟨fun h => (by cases h), hlacks⟩

theorem matchDirective_decides (hw : w.Fits) {d : Directive} {a b : Int}
    (ht : d.Takes reach a b least most) (hle : pos ≤ start + b) (hpos : pos < 0x5000000000000000) :
    Succeeds (w.Decides (start + reach.most) least most) (w.matchDirective pos d) := by
  unfold Directive.Takes at ht
  cases d with
  | accept => exact absurd ht (by simp)
  | seek delta => exact absurd ht (by simp)
  | literal bs =>
    obtain ⟨rfl, rfl, -, hmost⟩ := ht
    exact matchChoice_decides (c := .literal bs) hw (by omega) hpos trivial (Nat.le_refl bs.size)
  | masked bs mask =>
    obtain ⟨rfl, rfl, ⟨-, hmost⟩, hmask⟩ := ht
    exact matchChoice_decides (c := .masked bs mask) hw (by omega) hpos hmask (Nat.le_refl bs.size)
  | within c =>
    obtain ⟨rfl, rfl, -, hmost⟩ := ht
    exact matchByte_decides hw (by omega) hpos
  | outside c =>
    obtain ⟨rfl, rfl, -, hmost⟩ := ht
    exact matchByte_decides hw (by omega) hpos
  | atStart =>
    obtain ⟨rfl, rfl⟩ := ht
    refine .of_ok ⟨fun _ => ⟨Nat.le_refl _, Nat.le_refl _⟩, fun h => ?_⟩
    simp only at h
    split at h <;> cases h
  | atEnd =>
    obtain ⟨rfl, rfl, -, hmost⟩ := ht
    exact matchEnd_decides hw (by omega)
  | alternation choices =>
    obtain ⟨⟨-, hmost⟩, hchoices⟩ := ht
    exact matchFirst_decides hw (by omega) hpos hchoices

/-! ## Verdicts -/

theorem follow_decides {ds : List Directive} {a b cursor leftmost : Int} (hw : w.Fits)
    (hstart : start < 0x4000000000000000) (hb : Directive.Bounded reach a b ds)
    (hrange : Reach.InRange a b) (ha : start + a ≤ cursor) (hle : cursor ≤ start + b) :
    Succeeds (fun v => v = .undecided → w.Lacks (start + reach.most))
      (w.follow cursor leftmost ds) := by
  have hlimit : Reach.limit = 16383 := rfl
  induction hb generalizing cursor leftmost with
  | accept lo hi rest => exact .of_ok fun h => by cases h
  | seek range next ih =>
    have hr := range.le_lo
    have hr' := range.hi_le
    unfold follow
    rw [add_eq_ok (by omega) (by omega), ok_bind]
    exact ih range (by omega) (by omega)
  | @take lo hi d least most rest takes range next ih =>
    have hr := range.le_lo
    have hr' := range.hi_le
    have hin := hrange.le_lo
    have hin' := hrange.hi_le
    rw [follow_of_takes takes]
    refine (matchDirective_decides hw takes hle (by omega)).bind ?_
    rintro ⟨o, n⟩ ⟨hbounds, hlacks⟩
    cases o with
    | failed => exact .of_ok fun h => by cases h
    | incomplete => exact .of_ok fun _ => hlacks rfl
    | matched =>
      have hn := hbounds rfl
      simp only at hn ⊢
      rw [add_eq_ok (by omega) (by omega), ok_bind]
      exact ih range (by omega) (by omega)

/-- An automaton that was checked gives a verdict in each window, unless bytes of its
reach can follow the window. -/
theorem followFrom_decides {a : Automaton} (ha : Automaton.ofCode a.code = .ok a) (hw : w.Fits)
    (hstart : start < 0x4000000000000000) :
    Succeeds (fun v => v = .undecided → w.Lacks (start + a.reach.most))
      (w.followFrom a.directives start) := by
  have hlimit : Reach.limit = 16383 := rfl
  obtain ⟨-, hbounded⟩ := Reach.bounded_of_ofCode ha
  unfold followFrom
  rw [Signed.ofWord_eq (by omega)]
  exact follow_decides hw hstart hbounded ⟨by omega, by omega⟩ (by omega) (by omega)

end StreamMatch.Window
