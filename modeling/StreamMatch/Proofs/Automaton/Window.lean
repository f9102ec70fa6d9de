-- An automaton that sees a part of a stream gives the verdict that it gives for
-- the whole stream, or none if the bytes that it needs are not there yet.
import StreamMatch.Proofs.Automaton.Bounded
import StreamMatch.Proofs.Automaton.Compare
import StreamMatch.Proofs.State.Fields

namespace StreamMatch

open Bytes

namespace Window

/-- All the bytes of a stream that ended. -/
def whole (stream : Bytes) : Window := { bytes := stream, base := 0, atEnd := true }

/-- The offset after the last byte of a window. -/
def stop (w : Window) : Nat := w.base + w.bytes.size

/-- The window has the bytes of a stream from the offset `lo` on, up to where the
window stops. -/
structure Clips (w : Window) (stream : Bytes) (lo : Int) : Prop where
  part : PartOf stream w.base w.bytes
  size_lt : stream.size < 0x4000000000000000
  base_le : (w.base : Int) ≤ max lo 0
  ended : w.atEnd = true → w.stop = stream.size

/-- Bytes before the offset `hi` can still follow the window. -/
def Lacks (w : Window) (hi : Int) : Prop := w.atEnd = false ∧ (w.stop : Int) < hi

/-- What is found in a window is what is found in the whole stream, between
`least` and `most` bytes, unless some are missing. -/
def Agree (w : Window) (hi : Int) (least most : Nat) (found full : Checked (Outcome × Nat)) :
    Prop :=
  ∃ o n, full = .ok (o, n) ∧ o ≠ .incomplete ∧ (o = .matched → least ≤ n ∧ n ≤ most) ∧
    (found = full ∨ ∃ m, found = .ok (.incomplete, m) ∧ w.Lacks hi)

variable {w : Window} {stream : Bytes} {lo hi pos : Int}

theorem Clips.fits (hc : w.Clips stream lo) : w.Fits := by
  have hle := hc.part.le_size
  have hlt := hc.size_lt
  unfold Fits
  omega

theorem Clips.stop_le (hc : w.Clips stream lo) : w.stop ≤ stream.size := hc.part.le_size

theorem clips_whole (h : stream.size < 0x4000000000000000) (lo : Int) :
    (whole stream).Clips stream lo := by
  refine ⟨⟨?_, ?_⟩, h, ?_, ?_⟩
  · exact Nat.le_of_eq (Nat.zero_add _)
  · intro i _
    exact congrArg (byteAt stream) (Nat.zero_add i).symm
  · exact Int.le_max_right lo 0
  · intro _
    exact Nat.zero_add _

theorem whole_stop (stream : Bytes) : (whole stream).stop = stream.size := Nat.zero_add _

theorem whole_fits (h : stream.size < 0x4000000000000000) : (whole stream).Fits := by
  unfold Fits whole
  simp only
  omega

theorem Agree.refl {o : Outcome} {n least most : Nat} (ho : o ≠ .incomplete)
    (hn : o = .matched → least ≤ n ∧ n ≤ most) :
    w.Agree hi least most (.ok (o, n)) (.ok (o, n)) :=
  ⟨o, n, rfl, ho, hn, Or.inl rfl⟩

/-- Bytes are missing. If the window stops where the stream ends, nothing is found in the
whole stream either. -/
theorem Agree.of_missing {o : Outcome} {n : Nat} (ho : o ≠ .incomplete)
    (hended : w.atEnd = true → o = .failed) (hhi : (w.stop : Int) < hi) :
    w.Agree hi n n (.ok (w.missing, n)) (.ok (o, n)) := by
  unfold missing
  by_cases hend : w.atEnd = true
  · rw [if_pos hend, hended hend]
    exact Agree.refl (by simp) (by simp)
  · rw [if_neg hend]
    exact ⟨o, n, rfl, ho, fun _ => ⟨Nat.le_refl n, Nat.le_refl n⟩,
      Or.inr ⟨n, rfl, by simpa using hend, hhi⟩⟩

/-! ## What a window shows -/

theorem matchByte_eq (hw : w.Fits) (hpos : pos < 0x5000000000000000) (holds : UInt8 → Bool) :
    w.matchByte pos holds = .ok (if pos < w.base then .failed else
      if w.stop ≤ pos then w.missing else
        if holds (byteAt w.bytes (pos - w.base).toNat) then .matched else .failed) := by
  have hlast : w.last = .ok (w.stop : Int) := last_of_fits hw
  unfold matchByte
  rw [first_of_fits hw, hlast]
  by_cases hbefore : pos < w.base
  · rw [if_pos hbefore, if_pos hbefore]
    rfl
  · rw [if_neg hbefore, if_neg hbefore]
    by_cases hafter : (w.stop : Int) ≤ pos
    · rw [if_pos hafter, Checked.ok_bind, if_pos hafter]
      rfl
    · have hin : (pos - w.base).toNat < w.bytes.size := by
        unfold stop at hafter
        omega
      rw [if_neg hafter, Checked.ok_bind, if_neg hafter, sub_eq_ok (by omega) (by omega),
        Checked.ok_bind, getElem?_eq_byteAt hin]
      rfl

theorem matchEnd_eq (hw : w.Fits) (pos : Int) :
    w.matchEnd pos = .ok (if pos < w.stop then .failed else
      if w.atEnd then if pos = w.stop then .matched else .failed else .incomplete) := by
  have hlast : w.last = .ok (w.stop : Int) := last_of_fits hw
  unfold matchEnd
  rw [hlast, Checked.ok_bind]
  by_cases hbefore : pos < w.stop
  · rw [if_pos hbefore, if_pos hbefore]
    rfl
  · rw [if_neg hbefore, if_neg hbefore]
    rcases w.atEnd with _ | _
    · rfl
    · rfl

/-! ## Bytes and ends -/

/-- The bytes of a literal that are inside the window are compared with those of
the stream. -/
theorem agrees_inside (hc : w.Clips stream lo) {p : Nat} {literal : Bytes} {mask : Option Bytes}
    (hp : w.base ≤ p) : Agrees w.bytes (p - w.base) literal mask (w.inside p literal) ↔
      Agrees stream p literal mask (w.inside p literal) := by
  have hbytes : ∀ i, i < w.inside p literal →
      byteAt w.bytes (p - w.base + i) = byteAt stream (p + i) := by
    intro i hi
    unfold inside at hi
    rw [hc.part.byteAt_eq _ (by omega)]
    congr 1
    omega
  unfold Agrees
  constructor
  · intro h i hi
    rw [← hbytes i hi]
    exact h i hi
  · intro h i hi
    rw [hbytes i hi]
    exact h i hi

theorem matchAt_clips (hc : w.Clips stream lo) {p : Nat} {literal : Bytes} {mask : Option Bytes}
    (hlo : lo ≤ p) (hp : p < 0x5000000000000000)
    (hmask : ∀ m, mask = some m → m.size = literal.size) :
    w.matchAt p literal mask = .ok (if Agrees stream p literal mask (w.inside p literal) then
      if w.stop - p < literal.size then w.missing else .matched else .failed) := by
  have hbase := hc.base_le
  have hp' : w.base ≤ p := by omega
  have hcut : w.inside p literal < literal.size ↔ w.stop - p < literal.size := by
    unfold inside stop
    omega
  rw [matchAt_eq hc.fits hp' (by omega) hmask]
  simp only [agrees_inside hc hp', hcut]

/-- With no bytes missing a literal is matched or not. -/
theorem matchAt_whole (h : stream.size < 0x4000000000000000) {p : Nat} {literal : Bytes}
    {mask : Option Bytes} (hp : p < 0x5000000000000000)
    (hmask : ∀ m, mask = some m → m.size = literal.size) :
    (whole stream).matchAt p literal mask =
      .ok (if literal.size ≤ stream.size - p ∧ Agrees stream p literal mask literal.size then
        .matched else .failed) := by
  have hstop := whole_stop stream
  have hinside : literal.size ≤ stream.size - p → (whole stream).inside p literal =
      literal.size := by
    unfold inside whole
    simp only
    omega
  rw [matchAt_clips (clips_whole h 0) (by omega) hp hmask, hstop]
  congr 1
  by_cases hin : literal.size ≤ stream.size - p
  · have hcut : ¬stream.size - p < literal.size := by omega
    simp only [hinside hin, hin, hcut, true_and, if_false]
  · have hmissing : (whole stream).missing = .failed := rfl
    have hcut : stream.size - p < literal.size := by omega
    simp only [hin, hcut, false_and, if_false, if_true, hmissing, ite_self]

theorem matchAt_agree (hc : w.Clips stream lo) {literal : Bytes} {mask : Option Bytes}
    (hlo : lo ≤ pos) (hhi : pos + literal.size ≤ hi) (hpos : pos < 0x5000000000000000)
    (hmask : ∀ m, mask = some m → m.size = literal.size) :
    w.Agree hi literal.size literal.size (do return (← w.matchAt pos literal mask, literal.size))
      (do return (← (whole stream).matchAt pos literal mask, literal.size)) := by
  have hbase := hc.base_le
  have hstop := hc.stop_le
  by_cases hneg : pos < 0
  · -- Both windows start at the start of the stream.
    rw [matchAt_before literal mask hc.fits (by omega),
      matchAt_before literal mask (whole_fits hc.size_lt) hneg]
    exact Agree.refl (by simp) (by simp)
  · obtain ⟨p, rfl⟩ : ∃ p : Nat, pos = p := ⟨pos.toNat, by omega⟩
    rw [matchAt_clips hc hlo (by omega) hmask, matchAt_whole hc.size_lt (by omega) hmask]
    have hinside : w.inside p literal = min (w.stop - p) literal.size := rfl
    by_cases hagree : Agrees stream p literal mask (w.inside p literal)
    · by_cases hcut : w.stop - p < literal.size
      · rw [if_pos hagree, if_pos hcut]
        refine Agree.of_missing ?_ (fun hend => ?_) (by omega)
        · split <;> simp
        · have hall := hc.ended hend
          rw [if_neg (by omega)]
      · rw [hinside, Nat.min_eq_right (by omega)] at hagree
        rw [hinside, Nat.min_eq_right (by omega), if_pos hagree, if_neg hcut,
          if_pos ⟨by omega, hagree⟩]
        exact Agree.refl (by simp) (fun _ => ⟨Nat.le_refl _, Nat.le_refl _⟩)
    · rw [if_neg hagree, if_neg fun h => hagree fun i hi => h.2 i (by omega)]
      exact Agree.refl (by simp) (by simp)

theorem matchByte_clips (hc : w.Clips stream lo) (hlo : lo ≤ pos)
    (hpos : pos < 0x5000000000000000) (holds : UInt8 → Bool) :
    w.matchByte pos holds = .ok (if pos < 0 then .failed else
      if w.stop ≤ pos then w.missing else
        if holds (byteAt stream pos.toNat) then .matched else .failed) := by
  have hbase := hc.base_le
  rw [matchByte_eq hc.fits hpos]
  by_cases hneg : pos < 0
  · rw [if_pos hneg, if_pos (by omega)]
  · rw [if_neg hneg, if_neg (by omega)]
    by_cases hafter : (w.stop : Int) ≤ pos
    · rw [if_pos hafter, if_pos hafter]
    · rw [if_neg hafter, if_neg hafter, hc.part.byteAt_eq _ (by unfold stop at hafter; omega),
        show w.base + (pos - w.base).toNat = pos.toNat by omega]

theorem matchByte_agree (hc : w.Clips stream lo) {holds : UInt8 → Bool} (hlo : lo ≤ pos)
    (hhi : pos + 1 ≤ hi) (hpos : pos < 0x5000000000000000) :
    w.Agree hi 1 1 (do return (← w.matchByte pos holds, 1))
      (do return (← (whole stream).matchByte pos holds, 1)) := by
  have hstop := hc.stop_le
  have hmissing : (whole stream).missing = .failed := rfl
  rw [matchByte_clips hc hlo hpos, matchByte_clips (clips_whole hc.size_lt lo) hlo hpos,
    whole_stop, hmissing]
  by_cases hneg : pos < 0
  · rw [if_pos hneg, if_pos hneg]
    exact Agree.refl (by simp) (by simp)
  · rw [if_neg hneg, if_neg hneg]
    by_cases hin : pos < w.stop
    · -- The byte is in both windows.
      rw [if_neg (show ¬(w.stop : Int) ≤ pos by omega),
        if_neg (show ¬(stream.size : Int) ≤ pos by omega)]
      refine Agree.refl ?_ fun _ => ⟨Nat.le_refl 1, Nat.le_refl 1⟩
      split <;> simp
    · rw [if_pos (show (w.stop : Int) ≤ pos by omega)]
      refine Agree.of_missing ?_ (fun hend => ?_) (by omega)
      · split
        · simp
        · split <;> simp
      · have hall := hc.ended hend
        rw [if_pos (by omega)]

theorem matchEnd_agree (hc : w.Clips stream lo) (hhi : pos + 1 ≤ hi) :
    w.Agree hi 0 0 (do return (← w.matchEnd pos, 0))
      (do return (← (whole stream).matchEnd pos, 0)) := by
  have hstop := hc.stop_le
  have hended : (whole stream).atEnd = true := rfl
  rw [matchEnd_eq hc.fits, matchEnd_eq (whole_fits hc.size_lt), whole_stop, if_pos hended]
  by_cases hin : pos < w.stop
  · rw [if_pos hin, if_pos (by omega)]
    exact Agree.refl (by simp) (by simp)
  · rw [if_neg hin]
    by_cases hend : w.atEnd = true
    · have hall := hc.ended hend
      rw [if_pos hend, hall, if_neg (show ¬pos < (stream.size : Int) by omega)]
      refine Agree.refl ?_ fun _ => ⟨Nat.le_refl 0, Nat.le_refl 0⟩
      split <;> simp
    · rw [if_neg hend]
      refine ⟨_, 0, rfl, ?_, fun _ => ⟨Nat.le_refl 0, Nat.le_refl 0⟩,
        Or.inr ⟨0, rfl, by simpa using hend, by omega⟩⟩
      split
      · simp
      · split <;> simp

/-! ## Choices and directives -/

theorem matchChoice_agree (hc : w.Clips stream lo) {c : Alternative} {most : Nat}
    (hlo : lo ≤ pos) (hhi : pos + most ≤ hi) (hpos : pos < 0x5000000000000000)
    (hwhole : c.IsWhole) (hsize : c.size ≤ most) :
    w.Agree hi c.size c.size (w.matchChoice pos c) ((whole stream).matchChoice pos c) := by
  cases c with
  | literal bs =>
    unfold Alternative.size at hsize
    simp only at hsize
    exact matchAt_agree hc hlo (by omega) hpos (by simp)
  | masked bs mask =>
    unfold Alternative.size at hsize
    unfold Alternative.IsWhole at hwhole
    simp only at hsize hwhole
    refine matchAt_agree hc hlo (by omega) hpos ?_
    rintro m ⟨⟩
    exact hwhole

/-- A choice that fails in the window fails in the whole stream, so that both go
on with the same choices. -/
theorem matchFirst_agree (hc : w.Clips stream lo) {choices : List Alternative} {least most : Nat}
    (hlo : lo ≤ pos) (hhi : pos + most ≤ hi) (hpos : pos < 0x5000000000000000)
    (h : ∀ c ∈ choices, c.IsWhole ∧ least ≤ c.size ∧ c.size ≤ most) :
    w.Agree hi least most (w.matchFirst pos choices) ((whole stream).matchFirst pos choices) := by
  induction choices with
  | nil => exact Agree.refl (by simp) (by simp)
  | cons c rest ih =>
    have hrest := ih fun c' hc' => h c' (List.mem_cons_of_mem c hc')
    obtain ⟨hwhole, hleast, hmost⟩ := h c List.mem_cons_self
    obtain ⟨o, n, hfull, ho, hn, hfound⟩ := matchChoice_agree hc hlo hhi hpos hwhole hmost
    unfold matchFirst
    rw [hfull, Checked.ok_bind]
    rcases hfound with hfound | ⟨m, hfound, hlacks⟩
    · rw [hfound, hfull, Checked.ok_bind]
      cases o with
      | failed => exact hrest
      | matched => exact Agree.refl ho fun hm => by have := hn hm; omega
      | incomplete => exact absurd rfl ho
    · rw [hfound, Checked.ok_bind]
      cases o with
      | failed =>
        obtain ⟨o', n', hfull', ho', hn', -⟩ := hrest
        exact ⟨o', n', hfull', ho', hn', Or.inr ⟨m, rfl, hlacks⟩⟩
      | matched =>
        exact ⟨.matched, n, rfl, ho, fun hm => by have := hn hm; omega, Or.inr ⟨m, rfl, hlacks⟩⟩
      | incomplete => exact absurd rfl ho

theorem matchDirective_agree (hc : w.Clips stream lo) {reach : Reach} {d : Directive}
    {least most : Nat} {a b : Int} {start : Nat}
    (ht : d.Takes reach a b least most) (hlo : lo = start + reach.least)
    (ha : start + a ≤ pos) (hb : pos ≤ start + b) (hpos : pos < 0x5000000000000000) :
    w.Agree (start + reach.most) least most (w.matchDirective pos d)
      ((whole stream).matchDirective pos d) := by
  unfold Directive.Takes at ht
  cases d with
  | accept => exact absurd ht (by simp)
  | seek delta => exact absurd ht (by simp)
  | literal bs =>
    obtain ⟨rfl, rfl, hleast, hmost⟩ := ht
    exact matchChoice_agree (c := .literal bs) hc (by omega) (by omega) hpos trivial
      (Nat.le_refl bs.size)
  | masked bs mask =>
    obtain ⟨rfl, rfl, ⟨hleast, hmost⟩, hmask⟩ := ht
    exact matchChoice_agree (c := .masked bs mask) hc (by omega) (by omega) hpos hmask
      (Nat.le_refl bs.size)
  | within c =>
    obtain ⟨rfl, rfl, hleast, hmost⟩ := ht
    exact matchByte_agree hc (by omega) (by omega) hpos
  | outside c =>
    obtain ⟨rfl, rfl, hleast, hmost⟩ := ht
    exact matchByte_agree hc (by omega) (by omega) hpos
  | atStart =>
    obtain ⟨rfl, rfl⟩ := ht
    refine Agree.refl ?_ fun _ => ⟨Nat.le_refl 0, Nat.le_refl 0⟩
    split <;> simp
  | atEnd =>
    obtain ⟨rfl, rfl, hleast, hmost⟩ := ht
    exact matchEnd_agree hc (by omega)
  | alternation choices =>
    obtain ⟨⟨hleast, hmost⟩, hchoices⟩ := ht
    exact matchFirst_agree hc (by omega) (by omega) hpos hchoices

/-! ## Verdicts -/

theorem add_eq_ok {a b : Int} (h : -0x5000000000000000 ≤ a + b)
    (h' : a + b ≤ 0x5000000000000000) : Signed.add a b = .ok (a + b) := by
  apply Signed.fit_eq_ok
  unfold Signed.smallest Signed.largest
  omega

theorem follow_of_takes {reach : Reach} {a b : Int} {d : Directive} {least most : Nat}
    (ht : d.Takes reach a b least most) (w : Window) (cursor leftmost : Int)
    (rest : List Directive) :
    w.follow cursor leftmost (d :: rest) = (do
      match ← w.matchDirective cursor d with
      | (.failed, _) => return .rejected
      | (.incomplete, _) => return .undecided
      | (.matched, n) =>
        let leftmost := if 0 < n then min leftmost cursor else leftmost
        w.follow (← Signed.add cursor n) leftmost rest) := by
  cases d with
  | accept => exact absurd ht (by simp [Directive.Takes])
  | seek delta => exact absurd ht (by simp [Directive.Takes])
  | _ => rfl

/-- Directives within their reach get the verdict of the whole stream, or none if
bytes of the reach are missing. -/
theorem follow_agree {reach : Reach} {ds : List Directive} {a b cursor leftmost : Int}
    {start : Nat} (hc : w.Clips stream (start + reach.least)) (hstart : start ≤ stream.size)
    (hb : Directive.Bounded reach a b ds) (hrange : Reach.InRange a b)
    (ha : start + a ≤ cursor) (hle : cursor ≤ start + b) :
    ∃ v, (whole stream).follow cursor leftmost ds = .ok v ∧ v ≠ .undecided ∧
      (w.follow cursor leftmost ds = .ok v ∨
        w.follow cursor leftmost ds = .ok .undecided ∧ w.Lacks (start + reach.most)) := by
  have hlimit : Reach.limit = 16383 := rfl
  have hlt := hc.size_lt
  induction hb generalizing cursor leftmost with
  | accept lo hi rest => exact ⟨.confirmed (Signed.toWord leftmost), rfl, by simp, Or.inl rfl⟩
  | seek range next ih =>
    have hr := range.le_lo
    have hr' := range.hi_le
    unfold follow
    rw [add_eq_ok (by omega) (by omega), Checked.ok_bind, Checked.ok_bind]
    exact ih range (by omega) (by omega)
  | @take lo hi d least most rest takes range next ih =>
    have hr := range.le_lo
    have hr' := range.hi_le
    have hin := hrange.le_lo
    have hin' := hrange.hi_le
    obtain ⟨o, n, hfull, ho, hn, hfound⟩ :=
      matchDirective_agree hc takes rfl ha hle (by omega)
    -- What follows the directive gets a verdict in the whole stream in any case.
    have hnext : ∀ leftmost, o = .matched → ∃ v,
        (whole stream).follow (cursor + n) leftmost rest = .ok v ∧ v ≠ .undecided ∧
          (w.follow (cursor + n) leftmost rest = .ok v ∨
            w.follow (cursor + n) leftmost rest = .ok .undecided ∧
              w.Lacks (start + reach.most)) := by
      intro leftmost hm
      have := hn hm
      exact ih range (by omega) (by omega)
    rw [follow_of_takes takes, follow_of_takes takes, hfull, Checked.ok_bind]
    rcases hfound with hfound | ⟨m, hfound, hlacks⟩
    · rw [hfound, hfull, Checked.ok_bind]
      cases o with
      | failed => exact ⟨.rejected, rfl, by simp, Or.inl rfl⟩
      | incomplete => exact absurd rfl ho
      | matched =>
        have := hn rfl
        simp only
        rw [add_eq_ok (by omega) (by omega), Checked.ok_bind, Checked.ok_bind]
        exact hnext _ rfl
    · rw [hfound, Checked.ok_bind]
      cases o with
      | failed => exact ⟨.rejected, rfl, by simp, Or.inr ⟨rfl, hlacks⟩⟩
      | incomplete => exact absurd rfl ho
      | matched =>
        have := hn rfl
        simp only
        rw [add_eq_ok (by omega) (by omega), Checked.ok_bind]
        obtain ⟨v, hv, hv', -⟩ := hnext _ rfl
        exact ⟨v, hv, hv', Or.inr ⟨rfl, hlacks⟩⟩

/-- A window that has what the automaton can reach, as far as it is in the stream,
gives the verdict of the whole stream, unless it stops before the reach does. -/
theorem followFrom_agree {a : Automaton} {start : Nat} (ha : Automaton.ofCode a.code = .ok a)
    (hc : w.Clips stream (start + a.reach.least)) (hstart : start ≤ stream.size) :
    ∃ v, (whole stream).run a.code start = .ok v ∧ v ≠ .undecided ∧
      (w.followFrom a.directives start = .ok v ∨
        w.followFrom a.directives start = .ok .undecided ∧ w.Lacks (start + a.reach.most)) := by
  have hlimit : Reach.limit = 16383 := rfl
  have hlt := hc.size_lt
  obtain ⟨-, hbounded⟩ := Reach.bounded_of_ofCode ha
  obtain ⟨-, -, hdirectives⟩ := Automaton.ofCode_eq_ok_iff.mp ha
  unfold run followFrom
  rw [← hdirectives, Signed.ofWord_eq (by omega)]
  exact follow_agree hc hstart hbounded ⟨by omega, by omega⟩ (by omega) (by omega)

end Window

end StreamMatch
