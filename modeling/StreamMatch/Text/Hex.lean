-- Numbers and bytes written in base 16.
import StreamMatch.Bytes

namespace StreamMatch.Hex

/-- One digit, the letters in lower case. -/
def digit (n : Nat) : Char :=
  if n < 10 then Char.ofNat (48 + n) else Char.ofNat (87 + n)

/-- The two digits of a byte. -/
def byteDigits (b : UInt8) : List Char := [digit (b.toNat / 16), digit (b.toNat % 16)]

/-- Two digits for each byte. -/
def text (bs : List UInt8) : String := String.ofList (bs.flatMap byteDigits)

/-- The eight digits of a number of 32 bits, the most significant one first. -/
def word (n : UInt32) : String := text (Bytes.digits 4 n.toNat).reverse

/-- The digits of a number, without leading zeros. -/
def number (n : Nat) : String := String.ofList (Nat.toDigits 16 n)

end StreamMatch.Hex
