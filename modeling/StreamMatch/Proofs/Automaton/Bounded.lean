-- What the analysis of an automaton says of its directives: wherever the cursor
-- is when a directive is followed, what the directive looks at is in the reach.
import StreamMatch.Proofs.Automaton.Analysis

namespace StreamMatch

/-! ## Directives within the reach -/

namespace Reach

/-- The reach has all of `n` bytes from a cursor between `lo` and `hi`. -/
structure Covers (reach : Reach) (lo hi : Int) (n : Nat) : Prop where
  least_le : reach.least ≤ lo
  le_most : hi + n ≤ reach.most

/-- A cursor between `lo` and `hi` is not out of range. -/
structure InRange (lo hi : Int) : Prop where
  le_lo : -limit ≤ lo
  hi_le : hi ≤ limit

end Reach

namespace Alternative

/-- The mask of a choice, if it has one, is as long as its literal. -/
def IsWhole : Alternative → Prop
  | literal _ => True
  | masked bs mask => mask.size = bs.size

end Alternative

namespace Directive

/-- A directive that is neither `accept` nor `seek` takes at least `least` and at
most `most` bytes, all of them in the reach. -/
def Takes (reach : Reach) (lo hi : Int) (d : Directive) (least most : Nat) : Prop :=
  match d with
  | literal bs => least = bs.size ∧ most = bs.size ∧ reach.Covers lo hi bs.size
  | masked bs mask => least = bs.size ∧ most = bs.size ∧ reach.Covers lo hi bs.size ∧
      mask.size = bs.size
  | within _ | outside _ => least = 1 ∧ most = 1 ∧ reach.Covers lo hi 1
  | atStart => least = 0 ∧ most = 0
  | atEnd => least = 0 ∧ most = 0 ∧ reach.Covers lo hi 1
  | alternation choices => reach.Covers lo hi most ∧
      ∀ c ∈ choices, c.IsWhole ∧ least ≤ c.size ∧ c.size ≤ most
  | accept | seek _ => False

/-- The directives look only at what is in the reach when the cursor is between
`lo` and `hi` before the first one. -/
inductive Bounded (reach : Reach) : (lo hi : Int) → List Directive → Prop where
  | accept (lo hi : Int) (rest : List Directive) : Bounded reach lo hi (.accept :: rest)
  | seek {lo hi delta : Int} {rest : List Directive}
      (range : Reach.InRange (lo + delta) (hi + delta))
      (next : Bounded reach (lo + delta) (hi + delta) rest) :
      Bounded reach lo hi (.seek delta :: rest)
  | take {lo hi : Int} {d : Directive} {least most : Nat} {rest : List Directive}
      (takes : Takes reach lo hi d least most) (range : Reach.InRange (lo + least) (hi + most))
      (next : Bounded reach (lo + least) (hi + most) rest) : Bounded reach lo hi (d :: rest)

end Directive

/-! ## The analysis -/

namespace Reach

/-- A reach that is allowed and has all of a smaller one. -/
structure Widens (reach found : Reach) : Prop where
  least_le : found.least ≤ reach.least
  le_most : reach.most ≤ found.most
  allowed : found.isAllowed = true

/-- What was read before a step and what the step reads are both in a reach that
has the two. -/
theorem Widens.of_read {reach found : Reach} {lo hi : Int} {n : Nat}
    (h : (reach.read lo hi n).Widens found) : reach.Widens found ∧ found.Covers lo hi n := by
  obtain ⟨hleast, hmost, hallowed⟩ := h
  unfold read at hleast hmost
  simp only at hleast hmost
  exact ⟨⟨by omega, by omega, hallowed⟩, by omega, by omega⟩

/-- An instruction of a directive takes the cursor from its bounds to the next ones, and what it
looks at is in each reach that has the next one. -/
theorem takes_of_track {d : Directive} {lo hi lo' hi' : Int} {reach reach' found : Reach}
    (hd : d.IsStep) (hw : d.IsWritable) (hrange : InRange lo' hi')
    (h : track lo hi reach d.toInstr = .ok (lo', hi', reach')) (hfound : reach'.Widens found)
    {rest : List Directive} (hrest : Directive.Bounded found lo' hi' rest) :
    reach.Widens found ∧ Directive.Bounded found lo hi (d :: rest) := by
  cases d with
  | accept => exact absurd rfl hd.ne_accept
  | literal bs =>
    cases h
    obtain ⟨hwidens, hcovers⟩ := hfound.of_read
    exact ⟨hwidens, .take ⟨rfl, rfl, hcovers⟩ hrange hrest⟩
  | masked bs mask =>
    cases h
    obtain ⟨hwidens, hcovers⟩ := hfound.of_read
    exact ⟨hwidens, .take ⟨rfl, rfl, hcovers, hw.2⟩ hrange hrest⟩
  | within c =>
    cases h
    obtain ⟨hwidens, hcovers⟩ := hfound.of_read
    exact ⟨hwidens, .take ⟨rfl, rfl, hcovers⟩ hrange hrest⟩
  | outside c =>
    cases h
    obtain ⟨hwidens, hcovers⟩ := hfound.of_read
    exact ⟨hwidens, .take ⟨rfl, rfl, hcovers⟩ hrange hrest⟩
  | seek delta =>
    cases h
    exact ⟨hfound, .seek hrange hrest⟩
  | atStart =>
    cases h
    exact ⟨hfound, .take ⟨rfl, rfl⟩ (by simpa using hrange) (by simpa using hrest)⟩
  | atEnd =>
    cases h
    obtain ⟨hwidens, hcovers⟩ := hfound.of_read
    exact ⟨hwidens, .take ⟨rfl, rfl, hcovers⟩ (by simpa using hrange) (by simpa using hrest)⟩
  | alternation choices =>
    have hne : choices ≠ [] := fun h => hd.ne_alternation (congrArg Directive.alternation h)
    obtain ⟨least, most, htrack, hspans⟩ := track_alternation hne hw.1 lo hi reach
    rw [htrack] at h
    cases h
    obtain ⟨hwidens, hcovers⟩ := hfound.of_read
    refine ⟨hwidens, .take ⟨hcovers, fun c hc => ⟨?_, ?_⟩⟩ hrange hrest⟩
    · cases c with
      | literal bs => trivial
      | masked bs mask => exact (hw.1 _ hc).2
    · exact hspans.within _ (List.mem_map_of_mem hc)

/-- What the analysis accepts stays in the reach that it gives, which has what was read before. -/
theorem analyzeFrom_spec {ds : List Directive} {lo hi : Int} {reach found : Reach}
    (hds : ∀ d ∈ ds, d.IsStep ∧ d.IsWritable)
    (h : analyzeFrom lo hi reach (acceptedCode ds) = .ok found) :
    reach.Widens found ∧ Directive.Bounded found lo hi (ds ++ [.accept]) := by
  induction ds generalizing lo hi reach with
  | nil =>
    rw [analyzeFrom_acceptedCode_nil] at h
    split at h
    · next hallowed =>
      cases h
      exact ⟨⟨Int.le_refl _, Int.le_refl _, hallowed⟩, .accept _ _ _⟩
    · cases h
  | cons d rest ih =>
    obtain ⟨⟨hd, hw⟩, hrest⟩ := List.forall_mem_cons.mp hds
    rw [analyzeFrom_acceptedCode_cons hd hw] at h
    obtain ⟨⟨lo', hi', reach'⟩, htrack, h⟩ := Checked.bind_eq_ok_iff.mp h
    simp only at h
    split at h
    · cases h
    · obtain ⟨hwidens, hbounded⟩ := ih hrest h
      exact takes_of_track hd hw ⟨by omega, by omega⟩ htrack hwidens hbounded

/-- A checked automaton looks only at what is in its reach, which has the first
byte of the literal. -/
theorem bounded_of_ofCode {code : Code} {a : Automaton} (h : Automaton.ofCode code = .ok a) :
    Reach.none.Widens a.reach ∧ Directive.Bounded a.reach 0 0 a.directives := by
  obtain ⟨hreach, -, hdirectives⟩ := Automaton.ofCode_eq_ok_iff.mp h
  obtain ⟨ds, rfl, hds⟩ := exists_directives hreach
  rw [hdirectives, ofCode_acceptedCode hds]
  exact analyzeFrom_spec hds hreach

end Reach

end StreamMatch
