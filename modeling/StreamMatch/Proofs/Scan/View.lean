-- What an automaton sees during a scan: the bytes that it can reach, as far as
-- they are in the input. It says of them what it would say of the whole stream,
-- unless it needs bytes after the chunk.
import StreamMatch.Proofs.Automaton.Window
import StreamMatch.Proofs.Scan.Input
import StreamMatch.Program.Draft
import StreamMatch.Scan

namespace StreamMatch.Scan

open Bytes

variable {s : Scan} {stream : Bytes} {reach : Reach} {a : Automaton} {id : AutomatonId}
  {start : Nat} {w : Window}

/-! ## The bytes in view -/

/-- The bytes in `[lo, hi)` are those that an automaton can reach, as far as they
are in the input. -/
structure InView (s : Scan) (reach : Reach) (start lo hi : Nat) : Prop where
  floor_le : s.input.floor ≤ lo
  lo_le : lo ≤ hi
  hi_le : hi ≤ s.input.stop
  lo_eq : (lo : Int) = max (start + reach.least) s.input.floor
  width_le : (hi : Int) - lo ≤ reach.most - reach.least
  full : hi < s.input.stop → start + reach.most ≤ hi

theorem windowRange_spec (hstop : s.input.stop < 0x4000000000000000)
    (hwide : Reach.none.Widens reach) (hstart : start ≤ s.input.stop) :
    ∃ lo hi : Nat, s.windowRange reach start = .ok (lo, hi) ∧ s.InView reach start lo hi := by
  have hlimit : Reach.limit = 16383 := rfl
  have hsmall : Signed.smallest = -0x8000000000000000 := rfl
  have hlarge : Signed.largest = 0x7FFFFFFFFFFFFFFF := rfl
  have hbound : Word.bound = 0x10000000000000000 := rfl
  have hfloor := s.input.floor_add
  have hinput : s.input.stop = s.input.chunkStart + s.input.data.size := rfl
  have hend : s.input.chunkEnd = .ok s.input.stop := Input.chunkEnd_eq_ok (by omega)
  have hleast := hwide.least_le
  have hmost := hwide.le_most
  have hallowed := of_decide_eq_true hwide.allowed
  unfold Reach.none at hleast hmost
  simp only at hleast hmost
  obtain ⟨lo, hlo⟩ : ∃ lo : Nat, (lo : Int) = max (start + reach.least) s.input.floor :=
    ⟨(max ((start : Int) + reach.least) s.input.floor).toNat, by omega⟩
  obtain ⟨hi, hhi⟩ : ∃ hi : Nat, (hi : Int) = min (max (start + reach.most) lo) s.input.stop :=
    ⟨(min (max ((start : Int) + reach.most) lo) s.input.stop).toNat, by omega⟩
  refine ⟨lo, hi, ?_, ⟨by omega, by omega, by omega, hlo, by omega, fun hlt => by omega⟩⟩
  unfold windowRange
  rw [hend, Signed.ofWord_eq (show start < 0x8000000000000000 by omega),
    Signed.ofWord_eq (show s.input.floor < 0x8000000000000000 by omega)]
  simp only [Signed.add]
  rw [Signed.fit_eq_ok (by omega), Signed.fit_eq_ok (by omega)]
  simp only [Checked.ok_bind, Checked.pure_eq,
    Signed.ofWord_eq (show s.input.stop < 0x8000000000000000 by omega), ← hlo, ← hhi]
  rw [Signed.toWord_eq (by omega), Signed.toWord_eq (by omega)]

/-- The window has the bytes of a stream that an automaton can reach, as far as they
are in the input. -/
structure Views (s : Scan) (stream : Bytes) (reach : Reach) (start : Nat) (w : Window) :
    Prop where
  inView : s.InView reach start w.base w.stop
  part : PartOf stream w.base w.bytes
  atEnd_eq : w.atEnd = (s.isFinal && w.stop == s.input.stop)

/-- Bytes that the automaton can reach are missing only if the chunk ends before them. -/
theorem Views.lacks (h : s.Views stream reach start w) (hlacks : w.Lacks (start + reach.most)) :
    s.isFinal = false ∧ (s.input.stop : Int) < start + reach.most := by
  obtain ⟨hopen, hbefore⟩ := hlacks
  have hfull := h.inView.full
  have hle := h.inView.hi_le
  have hstop : w.stop = s.input.stop := by omega
  rw [h.atEnd_eq, hstop, beq_self_eq_true, Bool.and_true] at hopen
  exact ⟨hopen, by omega⟩

/-- If the history goes back far enough, the window is a part of the stream from where the
automaton can reach. -/
theorem Views.clips (h : s.Views stream reach start w) (hsize : stream.size < 0x4000000000000000)
    (hfinal : s.isFinal = true → s.input.stop = stream.size)
    (hfloor : (s.input.floor : Int) ≤ max (start + reach.least) 0) :
    w.Clips stream (start + reach.least) := by
  refine ⟨h.part, hsize, ?_, ?_⟩
  · rw [h.inView.lo_eq]
    exact Int.max_le.mpr ⟨Int.le_max_left _ _, hfloor⟩
  · intro hended
    rw [h.atEnd_eq, Bool.and_eq_true, beq_iff_eq] at hended
    rw [hended.2]
    exact hfinal hended.1

/-- The automaton is asked for its verdict on a window of what it can reach, whatever
was in the window buffer. -/
theorem exists_view (hshows : s.input.Shows stream) (hstop : s.input.stop < 0x4000000000000000)
    (hget : s.program.automata[id.toNat]? = some a) (hcode : Automaton.ofCode a.code = .ok a)
    (hstart : start ≤ s.input.stop) :
    ∃ w, s.Views stream a.reach start w ∧ ∀ (pr : Progress) {v : Verdict},
      a.reach.most - a.reach.least ≤ pr.window.size → w.followFrom a.directives start = .ok v →
        ∃ window, window.size = pr.window.size ∧
          s.confirm pr id start = .ok ({ pr with window }, v) := by
  have hbound : Word.bound = 0x10000000000000000 := rfl
  have hinput : s.input.stop = s.input.chunkStart + s.input.data.size := rfl
  have hend : s.input.chunkEnd = .ok s.input.stop := Input.chunkEnd_eq_ok (by omega)
  obtain ⟨hwide, -⟩ := Reach.bounded_of_ofCode hcode
  obtain ⟨lo, hi, hrange, hview⟩ := windowRange_spec hstop hwide hstart
  have hlo := hview.lo_le
  have hhi := hview.hi_le
  have hwidth := hview.width_le
  obtain ⟨bytes, hbytes, hlength, hpart⟩ := Input.bytesAt_spec hshows hview.floor_le
    (show lo + (hi - lo) ≤ s.input.chunkStart + s.input.data.size by omega)
  have hwstop : lo + bytes.size = hi := by omega
  refine ⟨{ bytes, base := lo, atEnd := s.isFinal && hi == s.input.stop },
    ⟨?_, hpart, ?_⟩, ?_⟩
  · unfold Window.stop
    simpa only [hwstop] using hview
  · unfold Window.stop
    simp only [hwstop]
  · intro pr v hfit hv
    have hfits : 0 + bytes.size ≤ pr.window.size := by omega
    refine ⟨pr.window.overwrite 0 bytes, (agreeOutside_overwrite _ _ _ hfits).size_eq, ?_⟩
    unfold confirm
    simp only [hget, Checked.some?, Checked.ok_bind, hrange, Word.sub_eq_ok hlo, hbytes,
      overwriteWithin_eq_ok hfits, Checked.pure_eq, hend, slice_overwrite _ _ _ hfits]
    rw [show Window.followFrom _ a.directives start = .ok v from hv]
    rfl

/-! ## The verdict -/

/-- What an automaton says of the bytes in view is what it says of all the bytes of the
stream. It says nothing only if it can reach bytes after those received, and never at the
end of the stream. -/
theorem confirm_refines_whole {pr : Progress} {code : Code} (hshows : s.input.Shows stream)
    (hsize : stream.size < 0x4000000000000000)
    (hfinal : s.isFinal = true → s.input.stop = stream.size)
    (hget : s.program.automata[id.toNat]? = some a) (hcode : Automaton.ofCode code = .ok a)
    (hstart : start ≤ s.input.stop)
    (hfloor : s.input.floor = 0 ∨ (s.input.floor : Int) ≤ start + a.reach.least)
    (hfit : a.reach.most - a.reach.least ≤ pr.window.size) :
    ∃ window v, s.confirm pr id start = .ok ({ pr with window }, v) ∧
      (s.isFinal = true → v ≠ .undecided) ∧
      (v ≠ .undecided → (Window.whole stream).run code start = .ok v) ∧
      (v = .undecided → (s.input.stop : Int) < start + a.reach.most) := by
  obtain ⟨-, rfl, -⟩ := Automaton.ofCode_eq_ok_iff.mp hcode
  have hstop : s.input.stop ≤ stream.size := hshows.data.le_size
  obtain ⟨w, hview, hconfirm⟩ := exists_view hshows (by omega) hget hcode hstart
  have hclips := hview.clips hsize hfinal (by omega)
  obtain ⟨v, hwhole, hne, hwindow | ⟨hwindow, hlacks⟩⟩ :=
    Window.followFrom_agree hcode hclips (by omega)
  · obtain ⟨window, -, heq⟩ := hconfirm pr hfit hwindow
    exact ⟨window, v, heq, fun _ => hne, fun _ => hwhole, fun h => absurd h hne⟩
  · obtain ⟨window, -, heq⟩ := hconfirm pr hfit hwindow
    obtain ⟨hopen, hbefore⟩ := hview.lacks hlacks
    refine ⟨window, .undecided, heq, fun h => ?_, fun h => absurd rfl h, fun _ => hbefore⟩
    rw [hopen] at h
    cases h

/-- The directives before `accept` of an automaton that wants an `a` before a literal of
one byte, and a `c` after it. -/
def betweenDirectives : List Directive :=
  [.seek (-1), .within (.single 97), .seek 1, .within (.single 99)]

def between : Automaton :=
  ⟨Reach.acceptedCode betweenDirectives, ⟨-1, 2⟩, betweenDirectives ++ [.accept]⟩

theorem ofCode_between : Automaton.ofCode between.code = .ok between := by
  have hseek : ∀ delta : Int, Instr.IsShort delta →
      (Directive.seek delta).IsStep ∧ (Directive.seek delta).IsWritable :=
    fun _ hshort => ⟨⟨hshort, nofun, nofun⟩, trivial⟩
  have hwithin : ∀ c : ByteClass,
      (Directive.within c).IsStep ∧ (Directive.within c).IsWritable :=
    fun _ => ⟨⟨trivial, nofun, nofun⟩, trivial⟩
  have hback := hseek (-1) ⟨by decide, by decide⟩
  have hahead := hseek 1 ⟨by decide, by decide⟩
  have hds : ∀ d ∈ betweenDirectives, d.IsStep ∧ d.IsWritable := by
    simp only [betweenDirectives, List.forall_mem_cons]
    exact ⟨hback, hwithin _, hahead, hwithin _, fun d hd => absurd hd List.not_mem_nil⟩
  refine Automaton.ofCode_eq_ok_iff.mpr ⟨?_, rfl, (Reach.ofCode_acceptedCode hds).symm⟩
  unfold Reach.analyze between betweenDirectives
  rw [Reach.analyzeFrom_of_track hback.1 hback.2 rfl (by decide),
    Reach.analyzeFrom_of_track (hwithin _).1 (hwithin _).2 rfl (by decide),
    Reach.analyzeFrom_of_track hahead.1 hahead.2 rfl (by decide),
    Reach.analyzeFrom_of_track (hwithin _).1 (hwithin _).2 rfl (by decide),
    Reach.analyzeFrom_acceptedCode_nil]
  rfl

/-- A draft of a program that confirms each `b`. -/
def betweenDraft : Draft :=
  { automata := #[between]
    patterns := #[(.literals [⟨.ofList [98], false, some (.ofNat 0)⟩], {})] }

def betweenProgram : Program := betweenDraft.build.toOption.get (by rfl)

/-- A scan of the first bytes of a stream. -/
def betweenScan (data : Bytes) (isFinal : Bool) : Scan :=
  { program := betweenProgram
    input := ⟨.empty, data, 0, Nat.zero_le 0⟩
    trackers := []
    isFinal
    policy := .always }

/-- The start of a scan, with a window buffer of three bytes. -/
def betweenStart : Progress := ⟨.empty, .ofList [0, 0, 0], [], .none, .scanning, #[]⟩

/-- Without the last byte of the stream `abc` there is no verdict for its `b` yet. With it
the verdict is that of the whole stream. -/
theorem between_confirms :
    Automaton.ofCode between.code = .ok between ∧
    (betweenScan (.ofList [97, 98]) false).confirm betweenStart (.ofNat 0) 1 =
      .ok ({ betweenStart with window := .ofList [97, 98, 0] }, .undecided) ∧
    (2 : Int) < 1 + between.reach.most ∧
    (betweenScan (.ofList [97, 98, 99]) true).confirm betweenStart (.ofNat 0) 1 =
      .ok ({ betweenStart with window := .ofList [97, 98, 99] }, .confirmed 0) ∧
    (Window.whole (.ofList [97, 98, 99])).run between.code 1 = .ok (.confirmed 0) := by
  have hopen : (betweenScan (.ofList [97, 98]) false).confirm betweenStart (.ofNat 0) 1 =
      .ok ({ betweenStart with window := .ofList [97, 98, 0] }, .undecided) := by rfl
  have hended : (betweenScan (.ofList [97, 98, 99]) true).confirm betweenStart (.ofNat 0) 1 =
      .ok ({ betweenStart with window := .ofList [97, 98, 99] }, .confirmed 0) := by rfl
  obtain ⟨_, v, hv, -, -, hbefore⟩ := @confirm_refines_whole (betweenScan (.ofList [97, 98]) false)
    (.ofList [97, 98] ++ .ofList [99]) between (.ofNat 0) 1 betweenStart between.code
    ⟨PartOf.empty (Nat.zero_le _), PartOf.prefix_of_append _ _⟩ (by decide) nofun rfl
    ofCode_between (by decide) (Or.inl rfl) (by decide)
  obtain ⟨_, v', hv', -, hwhole, -⟩ := @confirm_refines_whole
    (betweenScan (.ofList [97, 98, 99]) true) (.ofList [97, 98, 99]) between (.ofNat 0) 1
    betweenStart between.code ⟨PartOf.empty (Nat.zero_le _), PartOf.refl _⟩ (by decide)
    (fun _ => rfl) rfl ofCode_between (by decide) (Or.inl rfl) (by decide)
  rw [hopen, Except.ok.injEq, Prod.mk.injEq] at hv
  rw [hended, Except.ok.injEq, Prod.mk.injEq] at hv'
  obtain ⟨-, rfl⟩ := hv
  obtain ⟨-, rfl⟩ := hv'
  exact ⟨ofCode_between, hopen, hbefore rfl, hended, hwhole nofun⟩

end StreamMatch.Scan
