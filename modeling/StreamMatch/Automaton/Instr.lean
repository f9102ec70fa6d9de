-- The instructions of confirmation automata and their code. An instruction is
-- an opcode of one byte and its operands. Byte strings of any length are
-- written after their length, a number of two bytes.
import StreamMatch.ByteClass
import StreamMatch.Fault

namespace StreamMatch

/-- The code of an automaton. -/
abbrev Code := List UInt8

/-- An instruction of a confirmation automaton. -/
inductive Instr where
  /-- The candidate is confirmed. -/
  | accept
  /-- The bytes at the cursor are the given ones. -/
  | literal (bytes : Bytes)
  /-- The bytes at the cursor are the given ones after masking them. -/
  | masked (bytes mask : Bytes)
  /-- The byte at the cursor is in the class. -/
  | within (c : ByteClass)
  /-- The byte at the cursor is not in the class. -/
  | outside (c : ByteClass)
  /-- The cursor moves by a number of bytes, forward or backward. -/
  | seek (delta : Int)
  /-- The cursor is at the start of the stream. -/
  | atStart
  /-- The cursor is at the end of the stream. -/
  | atEnd
  /-- The first of the alternatives in this code that matches at the cursor. -/
  | alternation (body : Code)
deriving DecidableEq, Repr

/-- Why code is not the code of an instruction. -/
inductive DecodeError where
  | truncated
  | unknownOpcode (opcode : UInt8)
deriving DecidableEq, Repr

/-- The name of a decoding error. -/
def DecodeError.text : DecodeError → String
  | .truncated => "Truncated"
  | .unknownOpcode n => "UnknownOpcode(" ++ toString n.toNat ++ ")"

namespace Instr

/-! ## Decoding -/

/-- Splits the code after `n` bytes, which must exist. -/
def splitCode (n : Nat) (code : Code) : Except DecodeError (Code × Code) :=
  let taken := code.take n
  if taken.length = n then .ok (taken, code.drop n) else .error .truncated

/-- Reads a number of two bytes. -/
def takeShort (code : Code) : Except DecodeError (Nat × Code) := do
  let (bs, rest) ← splitCode 2 code
  return (Bytes.number bs, rest)

/-- Reads a byte string that stands after its length. -/
def takeString (code : Code) : Except DecodeError (Code × Code) := do
  let (n, rest) ← takeShort code
  splitCode n rest

/-- The signed number with the same 16 bits as an unsigned one. -/
def signedShort (n : Nat) : Int := (n : Int).bmod 0x10000

/-- Reads the operands of the instruction with the given opcode. -/
def decodeOperands (opcode : UInt8) (code : Code) : Except DecodeError (Instr × Code) :=
  match opcode.toNat with
  | 0 => return (accept, code)
  | 1 => do
    let (bs, rest) ← takeString code
    return (literal (.ofList bs), rest)
  | 2 => do
    let (bs, rest) ← takeString code
    let (mask, rest) ← splitCode bs.length rest
    return (masked (.ofList bs) (.ofList mask), rest)
  | 3 => do
    let (bs, rest) ← splitCode ByteClass.rawSize code
    return (within (ByteClass.ofRaw bs), rest)
  | 4 => do
    let (bs, rest) ← splitCode ByteClass.rawSize code
    return (outside (ByteClass.ofRaw bs), rest)
  | 5 => do
    let (n, rest) ← takeShort code
    return (seek (signedShort n), rest)
  | 6 => return (atStart, code)
  | 7 => return (atEnd, code)
  | 8 => do
    let (body, rest) ← takeString code
    return (alternation body, rest)
  | _ => .error (.unknownOpcode opcode)

/-- Reads one instruction, and gives the code that follows it. -/
def decode : Code → Except DecodeError (Instr × Code)
  | [] => .error .truncated
  | opcode :: operands => decodeOperands opcode operands

theorem splitCode_length {n : Nat} {code taken rest : Code}
    (h : splitCode n code = .ok (taken, rest)) : rest.length ≤ code.length := by
  unfold splitCode at h
  simp only at h
  split at h
  · cases h; simp
  · cases h

theorem takeShort_length {code rest : Code} {n : Nat}
    (h : takeShort code = .ok (n, rest)) : rest.length ≤ code.length := by
  obtain ⟨⟨bs, rest'⟩, hs, hok⟩ := Checked.bind_eq_ok_iff.mp h
  cases hok
  exact splitCode_length hs

theorem takeString_length {code taken rest : Code}
    (h : takeString code = .ok (taken, rest)) : rest.length ≤ code.length := by
  obtain ⟨⟨n, rest'⟩, hshort, hs⟩ := Checked.bind_eq_ok_iff.mp h
  exact Nat.le_trans (splitCode_length hs) (takeShort_length hshort)

theorem decodeOperands_length {opcode : UInt8} {code rest : Code} {i : Instr}
    (h : decodeOperands opcode code = .ok (i, rest)) : rest.length ≤ code.length := by
  unfold decodeOperands at h
  split at h
  · cases h
    exact Nat.le_refl _
  · obtain ⟨⟨bs, rest'⟩, hs, hok⟩ := Checked.bind_eq_ok_iff.mp h
    cases hok
    exact takeString_length hs
  · obtain ⟨⟨bs, rest'⟩, hs, h⟩ := Checked.bind_eq_ok_iff.mp h
    obtain ⟨⟨mask, rest''⟩, hm, hok⟩ := Checked.bind_eq_ok_iff.mp h
    cases hok
    exact Nat.le_trans (splitCode_length hm) (takeString_length hs)
  · obtain ⟨⟨bs, rest'⟩, hs, hok⟩ := Checked.bind_eq_ok_iff.mp h
    cases hok
    exact splitCode_length hs
  · obtain ⟨⟨bs, rest'⟩, hs, hok⟩ := Checked.bind_eq_ok_iff.mp h
    cases hok
    exact splitCode_length hs
  · obtain ⟨⟨n, rest'⟩, hs, hok⟩ := Checked.bind_eq_ok_iff.mp h
    cases hok
    exact takeShort_length hs
  · cases h
    exact Nat.le_refl _
  · cases h
    exact Nat.le_refl _
  · obtain ⟨⟨body, rest'⟩, hs, hok⟩ := Checked.bind_eq_ok_iff.mp h
    cases hok
    exact takeString_length hs
  · cases h

/-- Each instruction takes at least one byte. -/
theorem decode_length {code rest : Code} {i : Instr} (h : decode code = .ok (i, rest)) :
    rest.length < code.length := by
  cases code with
  | nil => cases h
  | cons opcode operands =>
    exact Nat.lt_succ_of_le (decodeOperands_length h)

/-- The instructions in a piece of code, in order, after the given ones. The
first error is the last item. -/
def itemsAfter (found : Array (Except DecodeError Instr)) (code : Code) :
    Array (Except DecodeError Instr) :=
  match code with
  | [] => found
  | opcode :: operands =>
    match _h : decode (opcode :: operands) with
    | .ok (i, rest) => itemsAfter (found.push (.ok i)) rest
    | .error e => found.push (.error e)
termination_by code.length
decreasing_by exact decode_length _h

/-- The instructions in a piece of code, in order. The first error is the last
item. -/
def items (code : Code) : List (Except DecodeError Instr) := (itemsAfter #[] code).toList

theorem itemsAfter_toList (found : Array (Except DecodeError Instr)) (code : Code) :
    (itemsAfter found code).toList = found.toList ++ items code := by
  induction hn : code.length using Nat.strongRecOn generalizing found code with
  | ind n ih =>
    cases code with
    | nil => simp [items, itemsAfter]
    | cons opcode operands =>
      rw [items, itemsAfter, itemsAfter]
      split
      · next i rest h =>
        have hlt : rest.length < n := hn ▸ decode_length h
        rw [ih _ hlt _ rest rfl, ih _ hlt (#[].push _) rest rfl]
        simp
      · simp

@[simp] theorem items_nil : items [] = [] := by simp [items, itemsAfter]

theorem items_of_decode_ok {code rest : Code} {i : Instr} (h : decode code = .ok (i, rest)) :
    items code = .ok i :: items rest := by
  cases code with
  | nil => cases h
  | cons opcode operands =>
    rw [items, itemsAfter]
    split
    · next i' rest' h' =>
      rw [h'] at h
      cases h
      rw [itemsAfter_toList]
      rfl
    · next e h' => rw [h'] at h; cases h

theorem items_of_decode_error {opcode : UInt8} {operands : Code} {e : DecodeError}
    (h : decode (opcode :: operands) = .error e) : items (opcode :: operands) = [.error e] := by
  rw [items, itemsAfter]
  split
  · next i rest h' => rw [h'] at h; cases h
  · next e' h' =>
    rw [h'] at h
    cases h
    rfl

/-! ## Encoding -/

/-- Writes a number in two bytes. -/
def putShort (n : Nat) : Code := Bytes.digits 2 n

/-- Writes a byte string after its length. -/
def putString (bs : Bytes) : Code := putShort bs.size ++ bs.toList

/-- The code of an instruction. -/
def encode : Instr → Code
  | accept => [0]
  | literal bs => 1 :: putString bs
  | masked bs mask => 2 :: (putString bs ++ mask.toList)
  | within c => 3 :: c.raw
  | outside c => 4 :: c.raw
  | seek delta => 5 :: putShort (delta % 0x10000).toNat
  | atStart => [6]
  | atEnd => [7]
  | alternation body => 8 :: (putShort body.length ++ body)

/-! ## Text -/

/-- The numbers of a list of bytes, separated by commas. -/
def numberText (bs : List UInt8) : String :=
  ", ".intercalate (bs.map fun b => toString b.toNat)

/-- The text of an instruction, as it appears in error messages. -/
def text : Instr → String
  | accept => "Match"
  | literal bs => "Literal([" ++ numberText bs.toList ++ "])"
  | masked bs mask =>
    "MaskedLiteral([" ++ numberText bs.toList ++ "], [" ++ numberText mask.toList ++ "])"
  | within c => "Class(" ++ c.text ++ ")"
  | outside c => "NotClass(" ++ c.text ++ ")"
  | seek delta => "Seek(" ++ toString delta ++ ")"
  | atStart => "AssertStart"
  | atEnd => "AssertEnd"
  | alternation body =>
    "Alternation(InstrParser \x7b code: [" ++ numberText body ++ "] \x7d)"

end Instr

end StreamMatch
