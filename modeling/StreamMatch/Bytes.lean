-- Byte strings: slices, replaced ranges, and numbers written with the least
-- significant byte first.

namespace StreamMatch

/-- A string of bytes, indexed from zero. -/
abbrev Bytes := ByteArray

instance : DecidableEq Bytes := ByteArray.decEq

instance : Repr Bytes := ⟨fun bytes prec => reprPrec bytes.data prec⟩

namespace Bytes

/-- The string of some bytes. -/
def ofList (bs : List UInt8) : Bytes := ⟨bs.toArray⟩

/-- The bytes of a string. -/
def toList (bytes : Bytes) : List UInt8 := bytes.data.toList


/-- The number whose digits in base 256 are the given bytes, the least
significant one first. -/
def number : List UInt8 → Nat
  | [] => 0
  | b :: rest => b.toNat + 256 * number rest

/-- The `width` least significant digits of a number in base 256, the least
significant one first. -/
def digits : (width n : Nat) → List UInt8
  | 0, _ => []
  | width + 1, n => UInt8.ofNat n :: digits width (n / 256)

/-- The bytes in `[pos, pos + len)`, as far as they exist. -/
def slice (bytes : Bytes) (pos len : Nat) : Bytes :=
  bytes.extract (min pos bytes.size) (min (pos + len) bytes.size)

/-- Replaces the bytes from position `pos` on. Bytes that would fall past the
end are dropped. -/
def replace (bytes : Bytes) (pos : Nat) : List UInt8 → Bytes
  | [] => bytes
  | b :: rest => replace (bytes.set! pos b) (pos + 1) rest

/-- Replaces the bytes from position `pos` on with a string that fits there. -/
def overwrite (bytes : Bytes) (pos : Nat) (source : Bytes) : Bytes :=
  source.copySlice 0 bytes pos source.size

/-- A string of `2 ^ k` zeros. -/
def zeroBlock : (k : Nat) → Bytes
  | 0 => ofList [0]
  | k + 1 =>
    let half := zeroBlock k
    half ++ half

/-- A string of zeros. -/
def zeros (size : Nat) : Bytes := (zeroBlock (size.log2 + 1)).slice 0 size

/-- The number of bytes that is too large for any string in memory. -/
def sizeBound : Nat := 0x8000000000000000

/-- The first `size` bytes, with zeros after them if there are not as many. -/
def resize (bytes : Bytes) (size : Nat) : Bytes :=
  bytes.slice 0 size ++ zeros (size - bytes.size)

/-- Writes a string `n` times in a row, from position `pos` on. -/
def overwriteTimes (bytes : Bytes) (pos : Nat) (source : Bytes) : (n : Nat) → Bytes
  | 0 => bytes
  | n + 1 => overwriteTimes (bytes.overwrite pos source) (pos + source.size) source n

/-- How many bytes are set to zero at a time. -/
def pageSize : Nat := 4096

/-- Sets `len` bytes from position `pos` on to zero, as far as they exist. -/
def clear (bytes : Bytes) (pos len : Nat) : Bytes :=
  let len := min len (bytes.size - pos)
  let bytes := bytes.overwriteTimes pos (zeros pageSize) (len / pageSize)
  bytes.overwrite (pos + len / pageSize * pageSize) (zeros (len % pageSize))

/-- The byte at a position, zero if there is none. -/
def byteAt (bytes : Bytes) (pos : Nat) : UInt8 := if h : pos < bytes.size then bytes[pos] else 0

/-- The number written in `width` bytes from position `pos` on. Bytes that do
not exist count as zero. -/
def readNumber (bytes : Bytes) (pos : Nat) : (width : Nat) → Nat
  | 0 => 0
  | width + 1 => (byteAt bytes pos).toNat + 256 * readNumber bytes (pos + 1) width

/-- Writes a number in `width` bytes from position `pos` on. -/
def writeNumber (bytes : Bytes) (pos : Nat) : (width n : Nat) → Bytes
  | 0, _ => bytes
  | width + 1, n => writeNumber (bytes.set! pos (UInt8.ofNat n)) (pos + 1) width (n / 256)

/-- The number written in eight bytes from position `pos` on. -/
def word (bytes : Bytes) (pos : Nat) : UInt64 :=
  if h : pos + 8 ≤ bytes.size then
    bytes[pos].toUInt64 + bytes[pos + 1].toUInt64 * 0x100
      + bytes[pos + 2].toUInt64 * 0x10000 + bytes[pos + 3].toUInt64 * 0x1000000
      + bytes[pos + 4].toUInt64 * 0x100000000 + bytes[pos + 5].toUInt64 * 0x10000000000
      + bytes[pos + 6].toUInt64 * 0x1000000000000 + bytes[pos + 7].toUInt64 * 0x100000000000000
  else UInt64.ofNat (readNumber bytes pos 8)

/-- The number written in eight bytes from position `pos` on, without a bound on
its size. -/
def readWord (bytes : Bytes) (pos : Nat) : Nat := (word bytes pos).toNat

/-- Returns whether `needle` stands in `bytes` at position `pos`. In most places
it does not, and the first byte tells that already. -/
def standsAt (needle bytes : Bytes) (pos : Nat) : Bool :=
  decide (pos + needle.size ≤ bytes.size)
    && (needle.isEmpty || bytes.byteAt pos == needle.byteAt 0)
    && decide (bytes.slice pos needle.size = needle)

/-! ## Strings and lists -/

@[simp] theorem toList_ofList (bs : List UInt8) : toList (ofList bs) = bs := rfl

@[simp] theorem ofList_toList (bytes : Bytes) : ofList bytes.toList = bytes := rfl

@[simp] theorem length_toList (bytes : Bytes) : bytes.toList.length = bytes.size := rfl

@[simp] theorem toList_append (a b : Bytes) : toList (a ++ b) = toList a ++ toList b := by
  simp [toList]

theorem slice_data (bytes : Bytes) (pos len : Nat) :
    (slice bytes pos len).data = bytes.data.extract pos (pos + len) := by
  simp only [slice, ByteArray.data_extract]
  apply Array.ext
  · simp only [Array.size_extract, ByteArray.size_data]
    omega
  · intro i hi _
    simp only [Array.size_extract, ByteArray.size_data] at hi
    simp only [Array.getElem_extract]
    congr 1
    omega

/-! ## Numbers and their digits -/

theorem digits_length (width n : Nat) : (digits width n).length = width := by
  induction width generalizing n with
  | zero => rfl
  | succ width ih => simp [digits, ih]

/-- One more byte stands for 256 times as many numbers. -/
theorem shift_byte (width : Nat) : 1 <<< (8 * (width + 1)) = 256 * 1 <<< (8 * width) := by
  rw [Nat.one_shiftLeft, Nat.one_shiftLeft, Nat.mul_add, Nat.pow_add, Nat.mul_comm]

theorem number_digits (width n : Nat) : number (digits width n) = n % (1 <<< (8 * width)) := by
  induction width generalizing n with
  | zero => simp [digits, number, Nat.mod_one]
  | succ width ih =>
    have hb : (UInt8.ofNat n).toNat = n % 256 := UInt8.toNat_ofNat'
    rw [digits, number, ih, hb, shift_byte, Nat.mod_mul]

theorem number_lt (bs : List UInt8) : number bs < 1 <<< (8 * bs.length) := by
  induction bs with
  | nil => simp [number]
  | cons b rest ih =>
    have hb : b.toNat < 256 := b.toNat_lt
    rw [number, List.length_cons, shift_byte]
    omega

/-- A word is the number in its eight bytes. -/
theorem word_toNat (bytes : Bytes) (pos : Nat) :
    (word bytes pos).toNat = readNumber bytes pos 8 := by
  have hlt (i : Nat) : (byteAt bytes i).toNat < 256 := UInt8.toNat_lt _
  have h₀ := hlt pos; have h₁ := hlt (pos + 1); have h₂ := hlt (pos + 2); have h₃ := hlt (pos + 3)
  have h₄ := hlt (pos + 4); have h₅ := hlt (pos + 5); have h₆ := hlt (pos + 6)
  have h₇ := hlt (pos + 7)
  simp only [readNumber, Nat.add_assoc, Nat.reduceAdd]
  by_cases h : pos + 8 ≤ bytes.size
  · have hat (i : Nat) (hi : i < bytes.size) : bytes[i] = byteAt bytes i := by simp [byteAt, hi]
    rw [word, dif_pos h]
    simp only [hat, UInt64.toNat_add, UInt64.toNat_mul, UInt8.toNat_toUInt64, UInt64.reduceToNat,
      Nat.mod_add_mod, Nat.add_mod_mod]
    omega
  · rw [word, dif_neg h]
    simp only [readNumber, Nat.add_assoc, Nat.reduceAdd, UInt64.toNat_ofNat']
    omega

theorem readWord_eq (bytes : Bytes) (pos : Nat) : readWord bytes pos = readNumber bytes pos 8 :=
  word_toNat bytes pos

/-! ## Places of a string -/

theorem byteAt_eq_getD (bytes : Bytes) (i : Nat) : byteAt bytes i = bytes.data[i]?.getD 0 := by
  unfold byteAt
  split
  · next h => rw [Array.getElem?_eq_getElem (show i < bytes.data.size from h)]; rfl
  · next h => rw [Array.getElem?_eq_none (Nat.le_of_not_lt h)]; rfl

theorem byteAt_slice {bytes : Bytes} {pos len i : Nat} (hi : i < len)
    (h : pos + len ≤ bytes.size) : byteAt (slice bytes pos len) i = byteAt bytes (pos + i) := by
  have hsize : bytes.data.size = bytes.size := rfl
  rw [byteAt_eq_getD, byteAt_eq_getD, slice_data, Array.getElem?_extract, if_pos (by omega)]

theorem standsAt_iff {needle bytes : Bytes} {pos : Nat} :
    standsAt needle bytes pos = true ↔
      pos + needle.size ≤ bytes.size ∧ slice bytes pos needle.size = needle := by
  simp only [standsAt, Bool.and_eq_true, decide_eq_true_iff, Bool.or_eq_true, beq_iff_eq]
  constructor
  · exact fun ⟨⟨h, _⟩, hs⟩ => ⟨h, hs⟩
  · intro ⟨h, hs⟩
    refine ⟨⟨h, ?_⟩, hs⟩
    by_cases he : needle.size = 0
    · exact Or.inl (by simp [ByteArray.isEmpty, he])
    · right
      have hb := byteAt_slice (show 0 < needle.size by omega) h
      rw [hs, Nat.add_zero] at hb
      exact hb.symm

/-! ## Replaced ranges -/

@[simp] theorem replace_size (bytes : Bytes) (pos : Nat) (bs : List UInt8) :
    (replace bytes pos bs).size = bytes.size := by
  induction bs generalizing bytes pos with
  | nil => rfl
  | cons b rest ih => simp [replace, ih]

/-- A replaced range reads back what was written, and every other position
keeps its byte. -/
theorem replace_getElem? (bytes : Bytes) (pos i : Nat) (bs : List UInt8) :
    (replace bytes pos bs).data[i]? =
      if pos ≤ i ∧ i < pos + bs.length ∧ i < bytes.size then bs[i - pos]?
      else bytes.data[i]? := by
  induction bs generalizing bytes pos with
  | nil =>
    have : ¬(pos ≤ i ∧ i < pos + 0 ∧ i < bytes.size) := by omega
    simp only [replace, List.length_nil, if_neg this]
  | cons b rest ih =>
    have hset : (bytes.set! pos b).data = bytes.data.setIfInBounds pos b := rfl
    simp only [replace, ih, ByteArray.size_set!, List.length_cons, hset]
    by_cases hpos : i = pos
    · subst hpos
      by_cases hi : i < bytes.size
      · have h : ¬(i + 1 ≤ i ∧ i < i + 1 + rest.length ∧ i < bytes.size) := by omega
        rw [if_neg h, Array.getElem?_setIfInBounds_self_of_lt hi]
        simp [hi]
      · simp [hi]
    · rw [Array.getElem?_setIfInBounds_ne (Ne.symm hpos)]
      by_cases h : pos + 1 ≤ i ∧ i < pos + 1 + rest.length ∧ i < bytes.size
      · have h' : pos ≤ i ∧ i < pos + (rest.length + 1) ∧ i < bytes.size := by omega
        rw [if_pos h, if_pos h']
        have : i - pos = (i - (pos + 1)) + 1 := by omega
        rw [this, List.getElem?_cons_succ]
      · have h' : ¬(pos ≤ i ∧ i < pos + (rest.length + 1) ∧ i < bytes.size) := by omega
        rw [if_neg h, if_neg h']

/-- Writing a number replaces bytes with its digits. -/
theorem writeNumber_eq_replace (bytes : Bytes) (pos width n : Nat) :
    writeNumber bytes pos width n = replace bytes pos (digits width n) := by
  induction width generalizing bytes pos n with
  | zero => rfl
  | succ width ih => rw [writeNumber, digits, replace, ih]

@[simp] theorem writeNumber_size (bytes : Bytes) (pos width n : Nat) :
    (writeNumber bytes pos width n).size = bytes.size := by
  rw [writeNumber_eq_replace, replace_size]

/-- What stands before and after a string that is written stays. -/
theorem overwrite_data (bytes source : Bytes) (pos : Nat) :
    (overwrite bytes pos source).data = bytes.data.extract 0 pos ++ source.data
      ++ bytes.data.extract (pos + source.size) bytes.size := by
  have hs : source.data.extract 0 source.size = source.data := Array.extract_size
  simp [overwrite, ByteArray.copySlice, hs]

/-- A string that fits is written byte by byte. -/
theorem overwrite_eq_replace {bytes source : Bytes} {pos : Nat}
    (h : pos + source.size ≤ bytes.size) :
    overwrite bytes pos source = replace bytes pos source.toList := by
  have hsize : bytes.data.size = bytes.size := rfl
  have hpre : (bytes.data.extract 0 pos).size = pos := by
    rw [Array.size_extract, hsize]
    omega
  apply ByteArray.ext
  apply Array.ext_getElem?
  intro i
  rw [replace_getElem?, overwrite_data, length_toList, Array.append_assoc, Array.getElem?_append,
    Array.getElem?_append, hpre, ByteArray.size_data]
  by_cases h₁ : i < pos
  · rw [if_pos h₁, if_neg (by omega), Array.getElem?_extract, if_pos (by omega), Nat.zero_add]
  · by_cases h₂ : i < pos + source.size
    · rw [if_neg h₁, if_pos (by omega), if_pos (by omega)]
      exact Array.getElem?_toList.symm
    · rw [if_neg h₁, if_neg (by omega), if_neg (by omega), Array.getElem?_extract]
      split
      · congr 1
        omega
      · rw [Array.getElem?_eq_none (by omega)]

theorem replace_append (bytes : Bytes) (pos : Nat) (as bs : List UInt8) :
    replace bytes pos (as ++ bs) = replace (replace bytes pos as) (pos + as.length) bs := by
  induction as generalizing bytes pos with
  | nil => rfl
  | cons a rest ih =>
    rw [List.cons_append, replace, ih, replace, List.length_cons]
    congr 1
    omega

/-- Only the bytes that do not fall past the end matter. -/
theorem replace_take (bytes : Bytes) (pos : Nat) (bs : List UInt8) :
    replace bytes pos (bs.take (bytes.size - pos)) = replace bytes pos bs := by
  apply ByteArray.ext
  apply Array.ext_getElem?
  intro i
  rw [replace_getElem?, replace_getElem?, List.length_take]
  by_cases h : pos ≤ i ∧ i < pos + bs.length ∧ i < bytes.size
  · rw [if_pos (by omega), if_pos h, List.getElem?_take_of_lt (by omega)]
  · rw [if_neg (by omega), if_neg h]

/-! ## Zeros -/

theorem zeroBlock_data (k : Nat) : (zeroBlock k).data = Array.replicate (1 <<< k) 0 := by
  induction k with
  | zero => rfl
  | succ k ih =>
    rw [zeroBlock, ByteArray.data_append, ih, Array.replicate_append_replicate]
    congr 1
    omega

@[simp] theorem zeros_data (size : Nat) : (zeros size).data = Array.replicate size 0 := by
  have h : size < 2 ^ (size.log2 + 1) := Nat.lt_log2_self
  rw [zeros, slice_data, zeroBlock_data, Nat.zero_add, Array.extract_replicate]
  congr 1
  omega

@[simp] theorem zeros_toList (size : Nat) : (zeros size).toList = List.replicate size 0 := by
  rw [toList, zeros_data, Array.toList_replicate]

@[simp] theorem zeros_size (size : Nat) : (zeros size).size = size := by
  rw [← length_toList, zeros_toList, List.length_replicate]

/-- Writing a string of zeros several times is writing a longer one. -/
theorem overwriteTimes_zeros {bytes : Bytes} {pos size n : Nat}
    (h : pos + n * size ≤ bytes.size) :
    overwriteTimes bytes pos (zeros size) n = replace bytes pos (List.replicate (n * size) 0) := by
  induction n generalizing bytes pos with
  | zero => simp [overwriteTimes, replace]
  | succ n ih =>
    have hn : (n + 1) * size = size + n * size := by rw [Nat.add_one_mul, Nat.add_comm]
    rw [hn] at h ⊢
    rw [overwriteTimes, overwrite_eq_replace (by rw [zeros_size]; omega), zeros_toList, zeros_size,
      ih (by rw [replace_size]; omega), ← List.replicate_append_replicate, replace_append,
      List.length_replicate]

/-- Clearing bytes replaces them with zeros. -/
theorem clear_eq_replace (bytes : Bytes) (pos len : Nat) :
    clear bytes pos len = replace bytes pos (List.replicate len 0) := by
  rw [← replace_take, List.take_replicate]
  generalize hn : min (bytes.size - pos) len = n
  have hmin : min len (bytes.size - pos) = n := by omega
  have hdiv : n / pageSize * pageSize + n % pageSize = n := Nat.div_add_mod' n pageSize
  by_cases hpos : pos ≤ bytes.size
  · simp only [clear, hmin]
    rw [overwriteTimes_zeros (by omega),
      overwrite_eq_replace (by rw [zeros_size, replace_size]; omega), zeros_toList]
    conv => rhs; rw [← hdiv, ← List.replicate_append_replicate, replace_append,
      List.length_replicate]
  · have hzero : n = 0 := by omega
    have hsize : bytes.size ≤ max pos bytes.size := Nat.le_max_right ..
    apply ByteArray.ext
    simp [clear, hmin, hzero, overwriteTimes, replace, overwrite_data, hsize]

@[simp] theorem clear_size (bytes : Bytes) (pos len : Nat) :
    (clear bytes pos len).size = bytes.size := by
  rw [clear_eq_replace, replace_size]

end Bytes

end StreamMatch
