-- Comparing a literal with the bytes of a window. Eight bytes at a time, and
-- the rest filled up with zeros, gives what comparing byte by byte gives.
import StreamMatch.Automaton.Verdict
import StreamMatch.Proofs.Bytes.Load

namespace StreamMatch

open Bytes

/-- The bits of a byte that count, all of them if there is no mask. -/
def maskByte (mask : Option Bytes) (i : Nat) : UInt8 :=
  match mask with
  | some mask => byteAt mask i
  | none => 0xFF

/-- The `n` bytes of `hay` from position `pos` on are those of the literal, as
far as they count. -/
def Agrees (hay : Bytes) (pos : Nat) (literal : Bytes) (mask : Option Bytes) (n : Nat) : Prop :=
  ∀ i, i < n → byteAt hay (pos + i) &&& maskByte mask i = byteAt literal i

instance (hay : Bytes) (pos : Nat) (literal : Bytes) (mask : Option Bytes) (n : Nat) :
    Decidable (Agrees hay pos literal mask n) :=
  inferInstanceAs (Decidable (∀ i, i < n → byteAt hay (pos + i) &&& maskByte mask i =
    byteAt literal i))

/-! ## Words -/

theorem and_full (b : UInt8) : b &&& 0xFF = b := by
  apply UInt8.toNat_inj.mp
  have hb : b.toNat < 2 ^ 8 := b.toNat_lt
  rw [UInt8.toNat_and]
  exact (Nat.and_two_pow_sub_one_eq_mod b.toNat 8).trans (Nat.mod_eq_of_lt hb)

theorem and_largest {n : Nat} (h : n < Word.bound) : n &&& Word.largest = n :=
  (Nat.and_two_pow_sub_one_eq_mod n 64).trans (Nat.mod_eq_of_lt h)

theorem word_eq_iff (hay literal : Bytes) (p i : Nat) :
    hay.word p = literal.word i ↔ ∀ k, k < 8 → byteAt hay (p + k) = byteAt literal (i + k) := by
  rw [← UInt64.toNat_inj, word_toNat, word_toNat, readNumber_eq_numberOf, readNumber_eq_numberOf,
    numberOf_eq_iff]

theorem word_and_eq_iff (hay mask literal : Bytes) (p i : Nat) :
    hay.word p &&& mask.word i = literal.word i ↔
      ∀ k, k < 8 → byteAt hay (p + k) &&& byteAt mask (i + k) = byteAt literal (i + k) := by
  rw [← UInt64.toNat_inj, UInt64.toNat_and, word_toNat, word_toNat, word_toNat,
    readNumber_eq_numberOf, readNumber_eq_numberOf, readNumber_eq_numberOf, numberOf_and,
    numberOf_eq_iff]

/-- The bytes that are not of the literal count as zero. -/
theorem forward_eq_ok {buffer : Bytes} {pos lo hi n : Nat} (hlo : lo ≤ pos) (hpos : pos + n = hi)
    (hn : n ≤ 8) (hin : hi ≤ buffer.size) (hlt : hi < sizeBound) :
    Load.forward .eight buffer pos lo hi = .ok (readNumber buffer pos n) := by
  rw [Load.forward_eq hlo (by omega), readNumber_eq_numberOf, numberOf_extend hn]
  refine congrArg Except.ok (numberOf_congr fun k hk => ?_)
  rw [← Int.natCast_add]
  split
  · exact Load.validByte_of_valid (by omega)
  · exact Load.validByte_of_not_valid (by omega)

theorem requireExact_eq_ok {buffer : Bytes} {pos lo hi : Nat} (hlo : lo ≤ pos)
    (hhi : pos + 8 ≤ hi) (hin : pos + 8 ≤ buffer.size) :
    Load.requireExact .eight buffer pos lo hi = .ok () := by
  have hwidth : LoadWidth.eight.bytes = 8 := rfl
  unfold Load.requireExact
  rw [hwidth, decide_eq_true (show lo ≤ pos ∧ pos + 8 ≤ hi from ⟨hlo, hhi⟩), decide_eq_true hin]
  rfl

namespace Window

/-! ## All the bytes of a literal -/

theorem lastWordMatches_spec {hay literal : Bytes} {mask : Option Bytes} {pos n i : Nat}
    (hi : i < n) (h8 : n ≤ i + 8) (hhay : pos + n ≤ hay.size) (hliteral : n ≤ literal.size)
    (hmask : ∀ m, mask = some m → n ≤ m.size) (hlt : pos + n < sizeBound) :
    ∃ same, lastWordMatches hay pos literal mask n i = .ok same ∧
      (same = true ↔ ∀ k, k < n - i →
        byteAt hay (pos + i + k) &&& maskByte mask (i + k) = byteAt literal (i + k)) := by
  have hfound := forward_eq_ok (show pos ≤ pos + i by omega)
    (show pos + i + (n - i) = pos + n by omega) (by omega) hhay hlt
  have hwanted := forward_eq_ok (Nat.zero_le i)
    (show i + (n - i) = n by omega) (by omega) hliteral (by omega)
  unfold lastWordMatches
  rw [hfound, hwanted]
  rcases mask with _ | mask
  · refine ⟨_, rfl, ?_⟩
    have hlt : readNumber hay (pos + i) (n - i) < Word.bound := by
      refine Nat.lt_of_lt_of_le (readNumber_lt _ _ _) ?_
      have hpow : Word.bound = 1 <<< (8 * 8) := rfl
      rw [hpow, Nat.one_shiftLeft, Nat.one_shiftLeft]
      exact Nat.pow_le_pow_right (by omega) (by omega)
    rw [beq_iff_eq, and_largest hlt, readNumber_eq_numberOf, readNumber_eq_numberOf,
      numberOf_eq_iff]
    simp only [maskByte, and_full]
  · have hkept := forward_eq_ok (Nat.zero_le i)
      (show i + (n - i) = n by omega) (by omega) (hmask mask rfl) (by omega)
    simp only [hkept, Checked.ok_bind]
    refine ⟨_, rfl, ?_⟩
    rw [beq_iff_eq, readNumber_eq_numberOf, readNumber_eq_numberOf, readNumber_eq_numberOf,
      numberOf_and, numberOf_eq_iff]
    rfl

/-- The first eight of the bytes that are left, and then all the others. -/
theorem forall_from_iff {P : Nat → Prop} {i n : Nat} (h : i + 8 ≤ n) :
    (∀ k, i ≤ k → k < n → P k) ↔
      (∀ k, k < 8 → P (i + k)) ∧ ∀ k, i + 8 ≤ k → k < n → P k := by
  constructor
  · intro hall
    exact ⟨fun k hk => hall (i + k) (by omega) (by omega), fun k hk => hall k (by omega)⟩
  · rintro ⟨hfirst, hrest⟩ k hk hlt
    by_cases h8 : k < i + 8
    · have hP := hfirst (k - i) (by omega)
      rwa [show i + (k - i) = k by omega] at hP
    · exact hrest k (by omega) hlt

/-- Eight bytes are compared at once, and the others after them if these are the same. -/
theorem wordsMatch_of_le {hay literal : Bytes} {mask : Option Bytes} {pos n i : Nat}
    (h8 : i + 8 ≤ n) (hhay : pos + n ≤ hay.size) (hliteral : n ≤ literal.size)
    (hmask : ∀ m, mask = some m → n ≤ m.size) :
    ∃ same, wordsMatch hay pos literal mask n i =
        (if same = true then wordsMatch hay pos literal mask n (i + 8) else .ok false) ∧
      (same = true ↔ ∀ k, k < 8 →
        byteAt hay (pos + (i + k)) &&& maskByte mask (i + k) = byteAt literal (i + k)) := by
  have hfound := requireExact_eq_ok (show pos ≤ pos + i by omega)
    (show pos + i + 8 ≤ pos + n by omega) (show pos + i + 8 ≤ hay.size by omega)
  have hwanted := requireExact_eq_ok (Nat.zero_le i) h8 (show i + 8 ≤ literal.size by omega)
  rw [wordsMatch, dif_pos h8, hfound, Checked.ok_bind, hwanted, Checked.ok_bind]
  simp only [← Nat.add_assoc]
  rcases mask with _ | mask
  · refine ⟨hay.word (pos + i) == literal.word i, ?_, ?_⟩
    · by_cases heq : hay.word (pos + i) = literal.word i
      · simp [heq]
      · simp [heq, Checked.pure_eq]
    · simp only [maskByte, and_full]
      exact beq_iff_eq.trans (word_eq_iff hay literal (pos + i) i)
  · have hkept := requireExact_eq_ok (Nat.zero_le i) h8
      (show i + 8 ≤ mask.size from Nat.le_trans h8 (hmask mask rfl))
    refine ⟨hay.word (pos + i) &&& mask.word i == literal.word i, ?_, ?_⟩
    · simp only [hkept, Checked.ok_bind]
      by_cases heq : hay.word (pos + i) &&& mask.word i = literal.word i
      · simp [heq]
      · simp [heq, Checked.pure_eq]
    · exact beq_iff_eq.trans (word_and_eq_iff hay mask literal (pos + i) i)

theorem wordsMatch_spec {hay literal : Bytes} {mask : Option Bytes} {pos n : Nat} (i : Nat)
    (hhay : 0 < n → pos + n ≤ hay.size) (hliteral : n ≤ literal.size)
    (hmask : ∀ m, mask = some m → n ≤ m.size) (hlt : hay.size < sizeBound) :
    ∃ same, wordsMatch hay pos literal mask n i = .ok same ∧
      (same = true ↔ ∀ k, i ≤ k → k < n →
        byteAt hay (pos + k) &&& maskByte mask k = byteAt literal k) := by
  induction hn : n - i using Nat.strongRecOn generalizing i with
  | ind d ih =>
    by_cases h8 : i + 8 ≤ n
    · obtain ⟨rest, hrest, hiff⟩ := ih (n - (i + 8)) (by omega) (i + 8) rfl
      obtain ⟨same, hsame, hiff'⟩ := wordsMatch_of_le h8 (hhay (by omega)) hliteral hmask
      rw [hsame, hrest, forall_from_iff h8, ← hiff, ← hiff']
      cases same with
      | true => exact ⟨rest, rfl, (and_iff_right rfl).symm⟩
      | false => exact ⟨false, rfl, iff_of_false (by simp) (by simp)⟩
    · rw [wordsMatch, dif_neg h8]
      by_cases hi : i < n
      · have hin := hhay (by omega)
        obtain ⟨same, hsame, hiff⟩ := lastWordMatches_spec hi (by omega) hin hliteral hmask
          (by omega)
        rw [if_pos hi]
        refine ⟨same, hsame, hiff.trans ?_⟩
        constructor
        · intro h k hk hlt
          have hk' := h (k - i) (by omega)
          rwa [Nat.add_assoc, Nat.add_sub_cancel' hk] at hk'
        · intro h k hk
          rw [Nat.add_assoc]
          exact h (i + k) (by omega) (by omega)
      · rw [if_neg hi]
        exact ⟨true, rfl, iff_of_true rfl fun k hk hlt => absurd hlt (by omega)⟩

/-! ## Windows -/

/-- The offsets of the window fit in 62 bits. -/
def Fits (w : Window) : Prop := w.base + w.bytes.size < 0x4000000000000000

theorem Fits.size_lt {w : Window} (h : w.Fits) : w.bytes.size < sizeBound := by
  have hbound : sizeBound = 0x8000000000000000 := rfl
  unfold Fits at h
  omega

theorem first_of_fits {w : Window} (h : w.Fits) : w.first = w.base := by
  unfold Fits at h
  rw [w.first_eq, Signed.ofWord_eq (by omega)]

theorem last_of_fits {w : Window} (h : w.Fits) : w.last = .ok (w.base + w.bytes.size : Nat) := by
  unfold Fits at h
  have hbound : Word.bound = 0x10000000000000000 := rfl
  rw [w.last_eq, Word.add_eq_ok (by omega)]
  refine congrArg Except.ok (Signed.ofWord_eq ?_)
  omega

theorem sub_eq_ok {a b : Int} (h : -0x8000000000000000 ≤ a - b)
    (h' : a - b < 0x8000000000000000) : Signed.sub a b = .ok (a - b) := by
  apply Signed.fit_eq_ok
  unfold Signed.smallest Signed.largest
  omega

/-- How many bytes of a literal at an offset are inside the window. -/
def inside (w : Window) (pos : Nat) (literal : Bytes) : Nat :=
  min (w.base + w.bytes.size - pos) literal.size

/-- A literal is matched byte by byte, as far as the window goes. -/
theorem matchAt_eq {w : Window} {pos : Nat} {literal : Bytes} {mask : Option Bytes}
    (hw : w.Fits) (hpos : w.base ≤ pos) (hlt : pos < 0x8000000000000000)
    (hmask : ∀ m, mask = some m → m.size = literal.size) :
    w.matchAt pos literal mask = .ok
      (if Agrees w.bytes (pos - w.base) literal mask (w.inside pos literal) then
        if w.inside pos literal < literal.size then w.missing else .matched
      else .failed) := by
  have hinside : min (w.bytes.size - (pos - w.base)) literal.size = w.inside pos literal := by
    unfold inside
    omega
  have hle : w.inside pos literal ≤ literal.size := Nat.min_le_right _ _
  have hstart : ((pos : Int) - (w.base : Int)).toNat = pos - w.base := by omega
  unfold matchAt
  rw [first_of_fits hw, if_neg (by omega), sub_eq_ok (by omega) (by omega), Checked.ok_bind,
    hstart]
  simp only [hinside]
  have hhay : 0 < w.inside pos literal → pos - w.base + w.inside pos literal ≤ w.bytes.size := by
    unfold inside
    omega
  have hmask' : ∀ m, mask = some m → w.inside pos literal ≤ m.size := by
    intro m hm
    rwa [hmask m hm]
  obtain ⟨same, hsame, hiff⟩ := wordsMatch_spec 0 hhay hle hmask' hw.size_lt
  have hagree : same = true ↔ Agrees w.bytes (pos - w.base) literal mask (w.inside pos literal) :=
    hiff.trans ⟨fun h k hk => h k (Nat.zero_le k) hk, fun h k _ hk => h k hk⟩
  rw [hsame, Checked.ok_bind]
  cases same
  · rw [if_neg fun h => absurd (hagree.mpr h) (by simp)]
    rfl
  · rw [if_pos (hagree.mp rfl)]
    rfl

theorem matchAt_before {w : Window} {pos : Int} (literal : Bytes) (mask : Option Bytes)
    (hw : w.Fits) (hpos : pos < w.base) : w.matchAt pos literal mask = .ok .failed := by
  unfold matchAt
  rw [first_of_fits hw, if_pos hpos]
  rfl

/-- What a byte of the window is compared as, with the byte of the literal at position `i`. -/
def seenAs (mask : Option Bytes) (i : Nat) (b : UInt8) : UInt8 :=
  match mask with
  | some mask => b &&& byteAt mask i
  | none => b

theorem and_maskByte (mask : Option Bytes) (i : Nat) (b : UInt8) :
    b &&& maskByte mask i = seenAs mask i b := by
  cases mask with
  | some mask => rfl
  | none => exact and_full b

theorem not_agrees_iff {hay literal : Bytes} {mask : Option Bytes} {pos n : Nat} :
    ¬Agrees hay pos literal mask n ↔
      ∃ i < n, seenAs mask i (byteAt hay (pos + i)) ≠ byteAt literal i := by
  unfold Agrees
  simp only [and_maskByte, Classical.not_forall, exists_prop, ne_eq]

/-- Matching a literal at any position of the stream gives what comparing it byte by byte gives.
Before the window nothing matches. A byte inside of the window that differs fails, whatever
follows. With bytes missing the match is incomplete, unless nothing follows the window. -/
theorem matchAt_eq_bytewise {w : Window} {pos : Int} {literal : Bytes} {mask : Option Bytes}
    (hw : w.base + w.bytes.size < 0x4000000000000000) (hpos : pos ≤ Signed.largest)
    (hmask : ∀ m, mask = some m → m.size = literal.size) :
    w.matchAt pos literal mask = .ok
      (if pos < w.base then .failed
      else if ∃ i < w.inside pos.toNat literal,
          seenAs mask i (w.bytes.byteAt (pos.toNat - w.base + i)) ≠ literal.byteAt i then .failed
      else if w.inside pos.toNat literal = literal.size then .matched
      else if w.atEnd then .failed else .incomplete) := by
  unfold Signed.largest at hpos
  by_cases hbefore : pos < w.base
  · rw [if_pos hbefore]
    exact matchAt_before literal mask hw hbefore
  · obtain ⟨p, rfl⟩ : ∃ p : Nat, pos = p := ⟨pos.toNat, by omega⟩
    have hle : w.inside p literal ≤ literal.size := Nat.min_le_right _ _
    rw [if_neg hbefore, Int.toNat_natCast, matchAt_eq hw (by omega) (by omega) hmask]
    simp only [← not_agrees_iff]
    by_cases hagree : Agrees w.bytes (p - w.base) literal mask (w.inside p literal)
    · rw [if_pos hagree, if_neg (not_not_intro hagree)]
      by_cases hall : w.inside p literal = literal.size
      · rw [if_neg (by omega), if_pos hall]
      · rw [if_pos (by omega), if_neg hall]
        rfl
    · rw [if_neg hagree, if_pos hagree]

/-- The bytes `0123456789` of a stream, from offset 5 on, when more can follow. -/
def digitsWindow : Window where
  bytes := .ofList [48, 49, 50, 51, 52, 53, 54, 55, 56, 57]
  base := 5
  atEnd := false

/-- Ten bytes, of which the fourth one is the start of any digit. -/
def digitsLiteral : Bytes := .ofList [49, 50, 51, 48, 53, 54, 55, 56, 57, 58]

/-- Only the high half of the fourth byte counts. -/
def digitsMask : Bytes := .ofList [255, 255, 255, 240, 255, 255, 255, 255, 255, 255]

/-- The first eight bytes are compared as a word, one more byte is inside of the window, and the
last one is missing. -/
theorem digitsWindow_matchAt :
    digitsWindow.base + digitsWindow.bytes.size < 0x4000000000000000 ∧ 6 ≤ Signed.largest ∧
    (∀ m, some digitsMask = some m → m.size = digitsLiteral.size) ∧
    digitsWindow.inside 6 digitsLiteral = 9 ∧
    digitsWindow.matchAt 6 digitsLiteral (some digitsMask) = .ok .incomplete := by
  have hmask : ∀ m, some digitsMask = some m → m.size = digitsLiteral.size := by
    rintro _ ⟨⟩
    rfl
  refine ⟨by decide, by decide, hmask, by decide, ?_⟩
  rw [matchAt_eq_bytewise (by decide) (by decide) hmask]
  exact congrArg Except.ok (by decide)

end Window

end StreamMatch
