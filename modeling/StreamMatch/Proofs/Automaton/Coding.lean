-- Decoding undoes encoding. An instruction that fits in its code is read back from it, and
-- what is read from some bytes is written back as the bytes that were taken.
import StreamMatch.Automaton.Assembler
import StreamMatch.Proofs.Checked

namespace StreamMatch

/-! ## Operands -/

namespace Bytes

/-- Each list of bytes is the list of the digits of one number. -/
theorem digits_number (bs : List UInt8) : digits bs.length (number bs) = bs := by
  induction bs with
  | nil => rfl
  | cons b rest ih =>
    have hb : b.toNat < 256 := b.toNat_lt
    have hfirst : UInt8.ofNat (b.toNat + 256 * number rest) = b := by
      apply UInt8.toNat_inj.mp
      rw [UInt8.toNat_ofNat']
      omega
    have hrest : (b.toNat + 256 * number rest) / 256 = number rest := by omega
    rw [List.length_cons, digits, number, hfirst, hrest, ih]

end Bytes

namespace ByteClass

theorem length_raw (c : ByteClass) : c.raw.length = rawSize := Bytes.digits_length _ _

/-- The bytes that a class was read from are those that it is written in. -/
theorem raw_ofRaw {bs : List UInt8} (h : bs.length = rawSize) : (ofRaw bs).raw = bs := by
  have hlt := Bytes.number_lt bs
  have hbits : (BitVec.ofNat 256 (Bytes.number bs)).toNat = Bytes.number bs := by
    rw [BitVec.toNat_ofNat]
    rw [h, Nat.one_shiftLeft] at hlt
    exact Nat.mod_eq_of_lt hlt
  unfold raw ofRaw
  rw [hbits, ← h, Bytes.digits_number]

end ByteClass

namespace Instr

variable {n : Nat} {delta : Int} {code taken rest : Code} {bs : Bytes} {i : Instr}

theorem splitCode_eq_ok_iff :
    splitCode n code = .ok (taken, rest) ↔ taken.length = n ∧ code = taken ++ rest := by
  unfold splitCode
  simp only
  constructor
  · intro h
    split at h
    · next hn =>
      cases h
      exact ⟨hn, (List.take_append_drop n code).symm⟩
    · cases h
  · rintro ⟨rfl, rfl⟩
    simp

theorem splitCode_raw (c : ByteClass) (rest : Code) :
    splitCode ByteClass.rawSize (c.raw ++ rest) = .ok (c.raw, rest) :=
  splitCode_eq_ok_iff.mpr ⟨c.length_raw, rfl⟩

theorem length_putShort (n : Nat) : (putShort n).length = 2 := Bytes.digits_length 2 n

theorem number_putShort (h : n ≤ Assembler.maxLength) : Bytes.number (putShort n) = n := by
  unfold Assembler.maxLength at h
  unfold putShort
  rw [Bytes.number_digits]
  exact Nat.mod_eq_of_lt (by omega)

theorem takeShort_eq_ok_iff :
    takeShort code = .ok (n, rest) ↔ n ≤ Assembler.maxLength ∧ code = putShort n ++ rest := by
  unfold takeShort
  rw [Checked.bind_eq_ok_iff]
  constructor
  · rintro ⟨⟨bs, rest'⟩, hsplit, hok⟩
    obtain ⟨hlength, rfl⟩ := splitCode_eq_ok_iff.mp hsplit
    cases hok
    have hlt := Bytes.number_lt bs
    rw [hlength] at hlt
    refine ⟨Nat.le_of_lt_succ hlt, ?_⟩
    unfold putShort
    rw [← hlength, Bytes.digits_number]
  · rintro ⟨hn, rfl⟩
    refine ⟨(putShort n, rest), splitCode_eq_ok_iff.mpr ⟨length_putShort n, rfl⟩, ?_⟩
    simp only [number_putShort hn]
    rfl

theorem takeString_eq_ok_iff :
    takeString code = .ok (taken, rest) ↔
      taken.length ≤ Assembler.maxLength ∧ code = putShort taken.length ++ (taken ++ rest) := by
  unfold takeString
  rw [Checked.bind_eq_ok_iff]
  constructor
  · rintro ⟨⟨n, rest'⟩, hshort, hsplit⟩
    obtain ⟨hn, rfl⟩ := takeShort_eq_ok_iff.mp hshort
    obtain ⟨rfl, rfl⟩ := splitCode_eq_ok_iff.mp hsplit
    exact ⟨hn, rfl⟩
  · rintro ⟨hn, rfl⟩
    exact ⟨(taken.length, taken ++ rest), takeShort_eq_ok_iff.mpr ⟨hn, rfl⟩,
      splitCode_eq_ok_iff.mpr ⟨rfl, rfl⟩⟩

/-- A signed number that fits in two bytes. -/
def IsShort (delta : Int) : Prop := -0x8000 ≤ delta ∧ delta < 0x8000

/-- The two bytes of a signed number stand for that number alone. -/
theorem signedShort_eq_iff (hn : n ≤ Assembler.maxLength) :
    signedShort n = delta ↔ IsShort delta ∧ n = (delta % 0x10000).toNat := by
  unfold Assembler.maxLength at hn
  unfold signedShort IsShort
  rw [Int.bmod_def]
  split <;> omega

/-! ## Instructions -/

/-- The operands of an instruction fit in its code. -/
def IsEncodable : Instr → Prop
  | literal bs => bs.size ≤ Assembler.maxLength
  | masked bs mask => bs.size ≤ Assembler.maxLength ∧ mask.size = bs.size
  | seek delta => IsShort delta
  | alternation body => body.length ≤ Assembler.maxLength
  | accept | within _ | outside _ | atStart | atEnd => True

theorem decode_encode (h : i.IsEncodable) (rest : Code) :
    decode (i.encode ++ rest) = .ok (i, rest) := by
  cases i with
  | accept => rfl
  | atStart => rfl
  | atEnd => rfl
  | literal bs =>
    have hs : takeString (putString bs ++ rest) = .ok (bs.toList, rest) :=
      takeString_eq_ok_iff.mpr ⟨h, List.append_assoc _ _ _⟩
    exact Checked.bind_eq_ok_iff.mpr ⟨_, hs, rfl⟩
  | masked bs mask =>
    obtain ⟨hle, hmask⟩ := h
    have hs : takeString (putString bs ++ (mask.toList ++ rest)) =
        .ok (bs.toList, mask.toList ++ rest) :=
      takeString_eq_ok_iff.mpr ⟨hle, List.append_assoc _ _ _⟩
    have hm : splitCode bs.toList.length (mask.toList ++ rest) = .ok (mask.toList, rest) :=
      splitCode_eq_ok_iff.mpr ⟨hmask, rfl⟩
    rw [← List.append_assoc] at hs
    exact Checked.bind_eq_ok_iff.mpr ⟨_, hs, Checked.bind_eq_ok_iff.mpr ⟨_, hm, rfl⟩⟩
  | within c =>
    refine Checked.bind_eq_ok_iff.mpr ⟨_, splitCode_raw c rest, ?_⟩
    simp only [ByteClass.ofRaw_raw]
    rfl
  | outside c =>
    refine Checked.bind_eq_ok_iff.mpr ⟨_, splitCode_raw c rest, ?_⟩
    simp only [ByteClass.ofRaw_raw]
    rfl
  | seek delta =>
    have hn : (delta % 0x10000).toNat ≤ Assembler.maxLength := by
      unfold Assembler.maxLength
      omega
    have hs : takeShort (putShort (delta % 0x10000).toNat ++ rest) =
        .ok ((delta % 0x10000).toNat, rest) := takeShort_eq_ok_iff.mpr ⟨hn, rfl⟩
    refine Checked.bind_eq_ok_iff.mpr ⟨_, hs, ?_⟩
    simp only [(signedShort_eq_iff hn).mpr ⟨h, rfl⟩]
    rfl
  | alternation body =>
    have hs : takeString (putShort body.length ++ body ++ rest) = .ok (body, rest) :=
      takeString_eq_ok_iff.mpr ⟨h, List.append_assoc _ _ _⟩
    exact Checked.bind_eq_ok_iff.mpr ⟨_, hs, rfl⟩

theorem encode_of_decode (h : decode code = .ok (i, rest)) :
    i.IsEncodable ∧ code = i.encode ++ rest := by
  rcases code with _ | ⟨opcode, operands⟩
  · cases h
  · have hop : ∀ n : UInt8, opcode.toNat = n.toNat → opcode = n := fun n => UInt8.toNat_inj.mp
    rw [decode] at h
    unfold decodeOperands at h
    split at h
    · next hn =>
      cases h
      exact ⟨trivial, congrArg (· :: rest) (hop 0 hn)⟩
    · next hn =>
      obtain ⟨⟨bs, rest'⟩, hs, hok⟩ := Checked.bind_eq_ok_iff.mp h
      obtain ⟨hle, rfl⟩ := takeString_eq_ok_iff.mp hs
      cases hok
      rw [hop 1 hn]
      exact ⟨hle, congrArg (1 :: ·) (List.append_assoc _ _ _).symm⟩
    · next hn =>
      obtain ⟨⟨bs, rest₁⟩, hs, h⟩ := Checked.bind_eq_ok_iff.mp h
      obtain ⟨⟨mask, rest₂⟩, hm, hok⟩ := Checked.bind_eq_ok_iff.mp h
      obtain ⟨hle, rfl⟩ := takeString_eq_ok_iff.mp hs
      obtain ⟨hmask, rfl⟩ := splitCode_eq_ok_iff.mp hm
      cases hok
      have hcode : putShort bs.length ++ (bs ++ (mask ++ rest)) =
          putShort bs.length ++ bs ++ mask ++ rest := by simp only [List.append_assoc]
      rw [hop 2 hn, hcode]
      exact ⟨⟨hle, hmask⟩, rfl⟩
    · next hn =>
      obtain ⟨⟨bs, rest'⟩, hs, hok⟩ := Checked.bind_eq_ok_iff.mp h
      obtain ⟨hlength, rfl⟩ := splitCode_eq_ok_iff.mp hs
      cases hok
      rw [hop 3 hn, encode, ByteClass.raw_ofRaw hlength]
      exact ⟨trivial, rfl⟩
    · next hn =>
      obtain ⟨⟨bs, rest'⟩, hs, hok⟩ := Checked.bind_eq_ok_iff.mp h
      obtain ⟨hlength, rfl⟩ := splitCode_eq_ok_iff.mp hs
      cases hok
      rw [hop 4 hn, encode, ByteClass.raw_ofRaw hlength]
      exact ⟨trivial, rfl⟩
    · next hn =>
      obtain ⟨⟨n, rest'⟩, hs, hok⟩ := Checked.bind_eq_ok_iff.mp h
      obtain ⟨hle, rfl⟩ := takeShort_eq_ok_iff.mp hs
      cases hok
      obtain ⟨hshort, hnumber⟩ := (signedShort_eq_iff hle).mp rfl
      rw [hop 5 hn, encode, ← hnumber]
      exact ⟨hshort, rfl⟩
    · next hn =>
      cases h
      exact ⟨trivial, congrArg (· :: rest) (hop 6 hn)⟩
    · next hn =>
      cases h
      exact ⟨trivial, congrArg (· :: rest) (hop 7 hn)⟩
    · next hn =>
      obtain ⟨⟨body, rest'⟩, hs, hok⟩ := Checked.bind_eq_ok_iff.mp h
      obtain ⟨hle, rfl⟩ := takeString_eq_ok_iff.mp hs
      cases hok
      rw [hop 8 hn]
      exact ⟨hle, congrArg (8 :: ·) (List.append_assoc _ _ _).symm⟩
    · cases h

/-- Code is read as an instruction and the code after it exactly if it was written so. -/
theorem decode_eq_ok_iff :
    decode code = .ok (i, rest) ↔ i.IsEncodable ∧ code = i.encode ++ rest :=
  ⟨encode_of_decode, fun ⟨h, hcode⟩ => hcode ▸ decode_encode h rest⟩

end Instr

end StreamMatch
