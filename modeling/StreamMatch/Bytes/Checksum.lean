-- CRC-32: the remainder of a byte string by the reflected polynomial
-- `EDB88320`, with all the bits of the register inverted at both ends.
import StreamMatch.Bytes

namespace StreamMatch.Checksum

/-- Shifts one bit out of the register. -/
def shiftBit (register : UInt32) : UInt32 :=
  if register &&& 1 == 1 then (register >>> 1) ^^^ 0xEDB88320 else register >>> 1

/-- Takes one byte into the register. -/
def takeByte (register : UInt32) (byte : UInt8) : UInt32 :=
  let r := register ^^^ byte.toUInt32
  shiftBit (shiftBit (shiftBit (shiftBit (shiftBit (shiftBit (shiftBit (shiftBit r)))))))

/-- Takes the bytes from the `i`-th one on into the register. -/
def takeFrom (bytes : Bytes) (register : UInt32) (i : Nat) : UInt32 :=
  if h : i < bytes.size then takeFrom bytes (takeByte register bytes[i]) (i + 1) else register
termination_by bytes.size - i

/-- The CRC-32 of a byte string. -/
def crc32 (bytes : Bytes) : UInt32 := takeFrom bytes 0xFFFFFFFF 0 ^^^ 0xFFFFFFFF

theorem takeFrom_eq_foldl (bytes : Bytes) (register : UInt32) (i : Nat) :
    takeFrom bytes register i = (bytes.toList.drop i).foldl takeByte register := by
  fun_induction takeFrom bytes register i with
  | case1 register i h ih =>
    have hi : i < bytes.toList.length := h
    rw [ih, List.drop_eq_getElem_cons hi]
    rfl
  | case2 register i h =>
    have hi : bytes.toList.length ≤ i := Nat.not_lt.mp h
    rw [List.drop_eq_nil_of_le hi]
    rfl

theorem crc32_eq_foldl (bytes : Bytes) :
    crc32 bytes = bytes.toList.foldl takeByte 0xFFFFFFFF ^^^ 0xFFFFFFFF := by
  rw [crc32, takeFrom_eq_foldl, List.drop_zero]

end StreamMatch.Checksum
