-- Sets of byte values, stored as a map of 256 bits where bit `n` is set if
-- byte `n` belongs to the class.
import StreamMatch.Bytes
import StreamMatch.Text.Hex

namespace StreamMatch

/-- A set of byte values. -/
structure ByteClass where
  bits : BitVec 256
deriving DecidableEq, Repr

namespace ByteClass

/-- How many bytes the map of a class takes when it is written down. -/
def rawSize : Nat := 32

/-- The class without bytes. -/
def empty : ByteClass := ⟨0⟩

/-- The class of all bytes. -/
def any : ByteClass := ⟨BitVec.allOnes 256⟩

/-- Returns whether the class has the byte. -/
def contains (c : ByteClass) (b : UInt8) : Bool := c.bits.getLsbD b.toNat

/-- Adds a byte to the class. -/
def insert (c : ByteClass) (b : UInt8) : ByteClass := ⟨c.bits ||| BitVec.twoPow 256 b.toNat⟩

/-- The class of one byte. -/
def single (b : UInt8) : ByteClass := empty.insert b

/-- Adds each byte from `lo` to `hi`, both included. -/
def insertRange (c : ByteClass) (lo hi : UInt8) : ByteClass :=
  (List.range' lo.toNat (hi.toNat + 1 - lo.toNat)).foldl (fun c n => c.insert (UInt8.ofNat n)) c

/-- The class of the bytes that are not in this one. -/
def complement (c : ByteClass) : ByteClass := ⟨~~~c.bits⟩

/-- All the byte values in increasing order. -/
def allBytes : List UInt8 := (List.range 256).map UInt8.ofNat

/-- The bytes of the class in increasing order. -/
def members (c : ByteClass) : List UInt8 := allBytes.filter c.contains

/-- How many bytes the class has. -/
def size (c : ByteClass) : Nat := c.members.length

/-- Returns whether the class has no bytes. -/
def isEmpty (c : ByteClass) : Bool := c.bits == 0

/-- The byte of a class that has just one. -/
def only? (c : ByteClass) : Option UInt8 :=
  let n := c.bits.toNat.log2
  if c.bits = BitVec.twoPow 256 n then some (UInt8.ofNat n) else none

/-- The class written in 32 bytes. Bit `n % 8` of byte `n / 8` is set if the
class has byte `n`. -/
def raw (c : ByteClass) : List UInt8 := Bytes.digits rawSize c.bits.toNat

/-- The class that is written in the given bytes. -/
def ofRaw (bs : List UInt8) : ByteClass := ⟨BitVec.ofNat 256 (Bytes.number bs)⟩

/-- The text of a class, two digits in base 16 for each member. -/
def text (c : ByteClass) : String := "[" ++ Hex.text c.members ++ "]"

/-! ## Membership -/

theorem ext_contains {c d : ByteClass} (h : ∀ b, c.contains b = d.contains b) : c = d := by
  cases c with
  | mk c =>
    cases d with
    | mk d =>
      congr 1
      apply BitVec.eq_of_getLsbD_eq
      intro i hi
      have hb : (UInt8.ofNat i).toNat = i := by
        rw [UInt8.toNat_ofNat']; omega
      simpa [contains, hb] using h (UInt8.ofNat i)

@[simp] theorem contains_empty (b : UInt8) : empty.contains b = false := by
  simp [contains, empty]

@[simp] theorem contains_any (b : UInt8) : any.contains b = true := by
  have h : b.toNat < 256 := b.toNat_lt
  rw [contains, any, BitVec.getLsbD_allOnes, decide_eq_true h]

@[simp] theorem contains_complement (c : ByteClass) (b : UInt8) :
    c.complement.contains b = !c.contains b := by
  have := b.toNat_lt
  have h : b.toNat < 256 := by omega
  simp [contains, complement, h]

@[simp] theorem contains_insert (c : ByteClass) (a b : UInt8) :
    (c.insert a).contains b = (c.contains b || decide (a = b)) := by
  have hb := b.toNat_lt
  have h : b.toNat < 256 := by omega
  simp only [contains, insert, BitVec.getLsbD_or, BitVec.getLsbD_twoPow]
  congr 1
  have ha : a.toNat < 256 := a.toNat_lt
  simp [ha, UInt8.toNat_inj]

theorem mem_members {c : ByteClass} {b : UInt8} : b ∈ c.members ↔ c.contains b = true := by
  unfold members allBytes
  rw [List.mem_filter, and_iff_right_iff_imp]
  intro _
  exact List.mem_map.mpr ⟨b.toNat, List.mem_range.mpr b.toNat_lt, UInt8.ofNat_toNat⟩

/-- Writing a class and reading it back gives the same class. -/
theorem ofRaw_raw (c : ByteClass) : ofRaw c.raw = c := by
  cases c with
  | mk bits =>
    have h := bits.isLt
    unfold ofRaw raw rawSize
    rw [Bytes.number_digits, Nat.mod_eq_of_lt (by simpa using h)]
    simp

end ByteClass

end StreamMatch
