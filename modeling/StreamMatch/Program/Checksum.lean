-- The checksum of a program, which tells the states of its streams from those
-- of other programs. It depends on everything that the program is made from.
import StreamMatch.Bytes.Checksum
import StreamMatch.Program

namespace StreamMatch

namespace Parts

/-- A number in four bytes. -/
def word (n : Nat) : List UInt8 := Bytes.digits 4 n

/-- The number that stands for a missing identifier. -/
def noId : Nat := 0xFFFFFFFF

/-- A flag in one byte. -/
def flag (b : Bool) : UInt8 := if b then 1 else 0

/-- The bytes of a header. -/
def headerImage (h : Header) : List UInt8 :=
  h.magic ++ word h.version.toNat ++ h.platform.toUTF8.toList

/-- The bytes of the settings. -/
def settingsImage (s : Settings) : List UInt8 := word s.bitmapLimit ++ word s.ringLimit

/-- The bytes of a pattern. -/
def patternImage (p : Pattern) : List UInt8 :=
  let kind := match p.kind with
    | .literals => noId
    | .repetition id => id.toNat
  word kind ++ [flag p.flags.singleMatch, flag p.flags.noStart]

/-- The bytes of a literal. -/
def literalImage (l : Literal) : List UInt8 :=
  let target := match l.target with
    | .pattern id => 0 :: word id.toNat
    | .repetition id => 1 :: word id.toNat
  let automaton := match l.automaton with
    | some id => id.toNat
    | none => noId
  word l.bytes.size ++ l.bytes.toList ++ target ++ [flag l.anchored] ++ word automaton

/-- The bytes of a repeat. -/
def repeatImage (r : Repeat) : List UInt8 :=
  r.allowed.raw ++ word r.least ++ r.most.text.toUTF8.toList ++ [r.tracking.code]

/-- The bytes of an automaton. -/
def automatonImage (a : Automaton) : List UInt8 := word a.code.length ++ a.code

/-- The bytes that are summed up in the checksum. -/
def image (p : Parts) : List UInt8 :=
  headerImage p.header ++ settingsImage p.settings
    ++ p.patterns.toList.flatMap patternImage
    ++ p.literals.toList.flatMap literalImage
    ++ p.repeats.toList.flatMap repeatImage
    ++ p.automata.toList.flatMap automatonImage

/-- The checksum of a program. -/
def checksum (p : Parts) : UInt32 := Checksum.crc32 (.ofList p.image)

end Parts

end StreamMatch
