-- Texts between double quotes. Special characters are escaped, and a byte
-- string is quoted as the text that it holds, with an escape for each byte
-- that is not part of a character.
import StreamMatch.Text.Hex
import StreamMatch.Text.Visible

namespace StreamMatch.Quoted

/-- An escape with the code point of a character. -/
def unicodeEscape (c : Char) : String := "\\u\x7b" ++ Hex.number c.toNat ++ "\x7d"

/-- A character of a text, escaped if it is special or not visible. -/
def ofChar (c : Char) : String :=
  match c with
  | '\x00' => "\\0"
  | '\t' => "\\t"
  | '\r' => "\\r"
  | '\n' => "\\n"
  | '"' => "\\\""
  | '\\' => "\\\\"
  | c => if Visible.isVisible c then String.singleton c else unicodeEscape c

/-- A text between quotes. -/
def text (s : String) : String := "\"" ++ String.join (s.toList.map ofChar) ++ "\""

/-- Returns whether a character of a byte string is escaped with the two digits
of its byte. -/
def isControl (c : Char) : Bool :=
  let n := c.toNat
  (1 ≤ n && n ≤ 8) || n == 0xb || n == 0xc || (0xe ≤ n && n ≤ 0x1f) || n == 0x7f

/-- A character of a byte string. -/
def ofByteChar (c : Char) : String :=
  if isControl c then "\\x" ++ Hex.text [UInt8.ofNat c.toNat]
  else if c = '\'' then "\\'"
  else ofChar c

/-- A byte that is not part of a character. -/
def strayByte (b : UInt8) : String := "\\x" ++ Hex.text [b]

/-- The pieces of the text of a byte string from position `i` on. -/
def pieces (bytes : ByteArray) (i : Nat) : List String :=
  if h : i < bytes.size then
    match bytes.utf8DecodeChar? i with
    | some c => ofByteChar c :: pieces bytes (i + c.utf8Size)
    | none => strayByte bytes[i] :: pieces bytes (i + 1)
  else []
termination_by bytes.size - i
decreasing_by
  · have := c.utf8Size_pos; omega
  · omega

/-- A byte string between quotes. -/
def bytes (bs : Bytes) : String := "\"" ++ String.join (pieces bs 0) ++ "\""

end StreamMatch.Quoted
