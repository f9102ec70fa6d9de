-- Numbers as strings of digits in base 256: what is done to the bits of a number
-- is done to each of its digits.
import StreamMatch.Proofs.Bytes.Fields

namespace StreamMatch.Bytes

/-- The number with the given digits in base 256, the least significant one
first. -/
def numberOf (f : Nat → UInt8) : (width : Nat) → Nat
  | 0 => 0
  | width + 1 => (f 0).toNat + 256 * numberOf (fun i => f (i + 1)) width

variable {f g : Nat → UInt8} {width : Nat}

theorem numberOf_congr (h : ∀ i, i < width → f i = g i) : numberOf f width = numberOf g width := by
  induction width generalizing f g with
  | zero => rfl
  | succ width ih =>
    have h₀ := h 0 (by omega)
    rw [numberOf, numberOf, h₀, ih fun i hi => h (i + 1) (by omega)]

theorem readNumber_eq_numberOf (bytes : Bytes) (pos width : Nat) :
    readNumber bytes pos width = numberOf (fun i => byteAt bytes (pos + i)) width := by
  induction width generalizing pos with
  | zero => rfl
  | succ width ih =>
    rw [readNumber, numberOf, ih]
    simp only [Nat.add_zero, Nat.add_assoc, Nat.add_comm 1]

theorem number_eq_numberOf (bs : List UInt8) :
    number bs = numberOf (fun i => bs[i]?.getD 0) bs.length := by
  induction bs with
  | nil => rfl
  | cons b rest ih =>
    rw [number, List.length_cons, numberOf, ih]
    simp only [List.getElem?_cons_zero, Option.getD_some, List.getElem?_cons_succ]

/-- Missing digits are zero. -/
theorem numberOf_extend {n : Nat} (h : n ≤ width) :
    numberOf f n = numberOf (fun i => if i < n then f i else 0) width := by
  induction width generalizing f n with
  | zero =>
    have hn : n = 0 := by omega
    subst hn
    rfl
  | succ width ih =>
    cases n with
    | zero =>
      have hz := ih (f := fun i => f (i + 1)) (Nat.zero_le width)
      simp only [numberOf, Nat.not_lt_zero, if_false] at hz ⊢
      rw [← hz]
      rfl
    | succ n =>
      rw [numberOf, numberOf, ih (show n ≤ width by omega)]
      simp

theorem numberOf_inj (h : numberOf f width = numberOf g width) : ∀ i, i < width → f i = g i := by
  induction width generalizing f g with
  | zero => exact fun i hi => absurd hi (by omega)
  | succ width ih =>
    have hf : (f 0).toNat < 256 := UInt8.toNat_lt _
    have hg : (g 0).toNat < 256 := UInt8.toNat_lt _
    rw [numberOf, numberOf] at h
    intro i hi
    cases i with
    | zero => exact UInt8.toNat_inj.mp (by omega)
    | succ i => exact ih (f := fun i => f (i + 1)) (g := fun i => g (i + 1)) (by omega) i (by omega)

theorem numberOf_eq_iff : numberOf f width = numberOf g width ↔ ∀ i, i < width → f i = g i :=
  ⟨numberOf_inj, numberOf_congr⟩

/-- An operation on bits is done to the lowest digit and to the others apart. -/
theorem and_digits {a b m n : Nat} (ha : a < 256) (hb : b < 256) :
    (a + 256 * m) &&& (b + 256 * n) = (a &&& b) + 256 * (m &&& n) := by
  have hab : a &&& b < 256 := Nat.lt_of_le_of_lt Nat.and_le_left ha
  have hmod : ((a + 256 * m) &&& (b + 256 * n)) % 2 ^ 8 = a &&& b := by
    rw [Nat.and_mod_two_pow, show (a + 256 * m) % 2 ^ 8 = a by omega,
      show (b + 256 * n) % 2 ^ 8 = b by omega]
  have hdiv : ((a + 256 * m) &&& (b + 256 * n)) / 2 ^ 8 = m &&& n := by
    rw [Nat.and_div_two_pow, show (a + 256 * m) / 2 ^ 8 = m by omega,
      show (b + 256 * n) / 2 ^ 8 = n by omega]
  omega

theorem xor_digits {a b m n : Nat} (ha : a < 256) (hb : b < 256) :
    (a + 256 * m) ^^^ (b + 256 * n) = (a ^^^ b) + 256 * (m ^^^ n) := by
  have hab : a ^^^ b < 2 ^ 8 := Nat.xor_lt_two_pow ha hb
  have hmod : ((a + 256 * m) ^^^ (b + 256 * n)) % 2 ^ 8 = a ^^^ b := by
    rw [Nat.xor_mod_two_pow, show (a + 256 * m) % 2 ^ 8 = a by omega,
      show (b + 256 * n) % 2 ^ 8 = b by omega]
  have hdiv : ((a + 256 * m) ^^^ (b + 256 * n)) / 2 ^ 8 = m ^^^ n := by
    rw [Nat.xor_div_two_pow, show (a + 256 * m) / 2 ^ 8 = m by omega,
      show (b + 256 * n) / 2 ^ 8 = n by omega]
  omega

theorem numberOf_and : numberOf f width &&& numberOf g width =
    numberOf (fun i => f i &&& g i) width := by
  induction width generalizing f g with
  | zero => simp [numberOf]
  | succ width ih =>
    rw [numberOf, numberOf, numberOf, and_digits (UInt8.toNat_lt _) (UInt8.toNat_lt _), ih,
      UInt8.toNat_and]

theorem numberOf_xor : numberOf f width ^^^ numberOf g width =
    numberOf (fun i => f i ^^^ g i) width := by
  induction width generalizing f g with
  | zero => simp [numberOf]
  | succ width ih =>
    rw [numberOf, numberOf, numberOf, xor_digits (UInt8.toNat_lt _) (UInt8.toNat_lt _), ih,
      UInt8.toNat_xor]

theorem numberOf_eq_zero_iff : numberOf f width = 0 ↔ ∀ i, i < width → f i = 0 := by
  have hz : numberOf (fun _ => 0) width = 0 := by
    induction width with
    | zero => rfl
    | succ width ih => rw [numberOf, ih]; rfl
  rw [← hz]
  exact numberOf_eq_iff

/-- The digits of a number are those it was made of. -/
theorem digits_numberOf (f : Nat → UInt8) (width : Nat) :
    digits width (numberOf f width) = (List.range width).map f := by
  induction width generalizing f with
  | zero => rfl
  | succ width ih =>
    have hlt : (f 0).toNat < 256 := UInt8.toNat_lt _
    have hfirst : UInt8.ofNat ((f 0).toNat + 256 * numberOf (fun i => f (i + 1)) width) = f 0 := by
      apply UInt8.toNat_inj.mp
      rw [UInt8.toNat_ofNat']
      omega
    have hrest : ((f 0).toNat + 256 * numberOf (fun i => f (i + 1)) width) / 256 =
        numberOf (fun i => f (i + 1)) width := by
      omega
    rw [numberOf, digits, hfirst, hrest, ih, List.range_succ_eq_map, List.map_cons, List.map_map]
    rfl

theorem numberOf_lt (f : Nat → UInt8) (width : Nat) : numberOf f width < 1 <<< (8 * width) := by
  induction width generalizing f with
  | zero => exact Nat.one_pos
  | succ width ih =>
    have hlt : (f 0).toNat < 256 := UInt8.toNat_lt _
    have hrest := ih fun i => f (i + 1)
    rw [numberOf, shift_byte]
    omega

end StreamMatch.Bytes
