import Mathlib.Data.Nat.Bitwise

/-! # Gray codes

The Gray code combines a word with itself shifted down by one bit. Decoding
combines with the shifts by all powers of two below the word size, and each
round doubles the shift that is left over from the encoding.
-/

namespace Foundation.GrayCode

/-- A word combined with itself shifted down. -/
def xorShift (shift word : Nat) : Nat := word ^^^ (word >>> shift)

/-- Rounds of doubled shifts, starting with the shift by one bit. -/
def decode : (rounds : Nat) → Nat → Nat
  | 0, word => word
  | rounds + 1, word => xorShift (2 ^ rounds) (decode rounds word)

@[simp] theorem testBit_xorShift (shift word i : Nat) :
    (xorShift shift word).testBit i = (word.testBit i ^^ word.testBit (shift + i)) := by
  rw [xorShift, Nat.testBit_xor, Nat.testBit_shiftRight]

theorem xorShift_comm (first second word : Nat) :
    xorShift first (xorShift second word) = xorShift second (xorShift first word) := by
  apply Nat.eq_of_testBit_eq
  intro i
  simp only [testBit_xorShift, Nat.add_left_comm second first i]
  cases word.testBit i <;> cases word.testBit (first + i) <;> simp

/-- Two shifts by the same distance leave a shift by twice that distance. -/
theorem xorShift_twice (shift word : Nat) :
    xorShift shift (xorShift shift word) = xorShift (2 * shift) word := by
  apply Nat.eq_of_testBit_eq
  intro i
  simp only [testBit_xorShift, Nat.two_mul, Nat.add_assoc]
  cases word.testBit i <;> cases word.testBit (shift + i) <;> simp

theorem xorShift_lt {shift word n : Nat} (hword : word < 2 ^ n) : xorShift shift word < 2 ^ n :=
  Nat.xor_lt_two_pow hword (Nat.lt_of_le_of_lt (Nat.shiftRight_le _ _) hword)

/-- A shift by the whole word changes nothing. -/
theorem xorShift_of_lt {shift word : Nat} (hword : word < 2 ^ shift) :
    xorShift shift word = word := by
  rw [xorShift, Nat.shiftRight_eq_zero _ _ hword, Nat.xor_zero]

theorem decode_lt {rounds word n : Nat} (hword : word < 2 ^ n) : decode rounds word < 2 ^ n := by
  induction rounds with
  | zero => exact hword
  | succ rounds ih => exact xorShift_lt ih

theorem decode_xorShift_comm (rounds shift word : Nat) :
    decode rounds (xorShift shift word) = xorShift shift (decode rounds word) := by
  induction rounds with
  | zero => rfl
  | succ rounds ih => rw [decode, decode, ih, xorShift_comm]

theorem decode_xorShift_one (rounds word : Nat) :
    decode rounds (xorShift 1 word) = xorShift (2 ^ rounds) word := by
  induction rounds with
  | zero => rfl
  | succ rounds ih => rw [decode, ih, xorShift_twice, ← Nat.pow_succ']

/-- Decoding inverts the Gray code of a word that the rounds cover. -/
theorem decode_encode {rounds word : Nat} (hword : word < 2 ^ 2 ^ rounds) :
    decode rounds (xorShift 1 word) = word := by
  rw [decode_xorShift_one, xorShift_of_lt hword]

theorem encode_decode {rounds word : Nat} (hword : word < 2 ^ 2 ^ rounds) :
    xorShift 1 (decode rounds word) = word := by
  rw [← decode_xorShift_comm, decode_encode hword]

end Foundation.GrayCode
