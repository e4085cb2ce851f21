import GrCcsds.Arithmetic
import GrCcsds.Utils

/-! # The ambiguities of an M-PSK constellation

The mappings between constellation indices and bits, and the conversion of soft
bits between the rotations of a constellation. The order of the constellation
is `2 ^ ldM` with at most eight bits a symbol, so that a symbol fits a byte.
-/

namespace GrCcsds.Ambiguity

open Utils

def togray (binary : Nat) : Nat := (binary >>> 1) ^^^ binary

/-- The shifts are the powers of two below the 32 bits of an `unsigned int`. -/
def tobinary (num : Nat) : Nat :=
  [1, 2, 4, 8, 16].foldl (fun num shift => num ^^^ (num >>> shift)) num

def pskMap (i : Nat) : Nat := togray i

/-- The mapping of QPSK has the reverse direction. -/
def qpskMap (i : Nat) : Nat := [0, 2, 3, 1].getD i 0

def mpskMap (order : Nat) : Nat → Nat := if order = 4 then qpskMap else pskMap

def pskRevMap (i : Nat) : Nat := tobinary i

def qpskRevMap (i : Nat) : Nat := [0, 3, 1, 2].getD i 0

def mpskRevMap (order : Nat) : Nat → Nat := if order = 4 then qpskRevMap else pskRevMap

def extractBitLeft (byte bitPos : Nat) : Bool := byte &&& (0x80 >>> bitPos) != 0

def getLowerMul (ldM n : Nat) : Nat := divideFloor n ldM * ldM

def getUpperMul (ldM n : Nat) : Nat := divideCeil n ldM * ldM

theorem getLowerMul_dvd (ldM n : Nat) : ldM ∣ getLowerMul ldM n := Nat.dvd_mul_left _ _

theorem getUpperMul_dvd (ldM n : Nat) : ldM ∣ getUpperMul ldM n := Nat.dvd_mul_left _ _

theorem getLowerMul_add_mod (ldM n : Nat) : getLowerMul ldM n + n % ldM = n :=
  Nat.div_add_mod' n ldM

theorem le_getUpperMul {ldM : Nat} (hpos : 0 < ldM) (n : Nat) : n ≤ getUpperMul ldM n := by
  have hdivision := Nat.div_add_mod' n ldM
  have hmod := Nat.mod_lt n hpos
  unfold getUpperMul divideCeil
  split
  next hzero => omega
  next hrest =>
    rw [Nat.add_mul]
    omega

theorem getLowerMul_le (ldM n : Nat) : getLowerMul ldM n ≤ n := Nat.div_mul_le_self n ldM

theorem getLowerMul_of_dvd {ldM n : Nat} (hdvd : ldM ∣ n) : getLowerMul ldM n = n :=
  Nat.div_mul_cancel hdvd

/-- The next multiple below is the largest one. -/
theorem le_getLowerMul {ldM m n : Nat} (hdvd : ldM ∣ m) (hle : m ≤ n) : m ≤ getLowerMul ldM n :=
  getLowerMul_of_dvd hdvd ▸ Nat.mul_le_mul_right ldM (Nat.div_le_div_right hle)

/-- The next multiple above is the smallest one. -/
theorem getUpperMul_le {ldM m n : Nat} (hdvd : ldM ∣ m) (hle : n ≤ m) : getUpperMul ldM n ≤ m := by
  obtain ⟨q, rfl⟩ := hdvd
  rw [Nat.mul_comm] at hle ⊢
  exact Nat.mul_le_mul_right ldM (divideCeil_le_of_le_mul hle)

section Convert

variable {R : Type} [Arithmetic R]

/-- The hard decisions of a symbol, the first bit as the most significant one. -/
def convertToChar (ldM : Nat) (input : Nat → R) : Nat :=
  (List.range ldM).foldl
    (fun out i => (out <<< 1) % 256 ||| (if input i > 0 then 1 else 0)) 0

/-- Bit `p` of a stream of symbols as it is without the ambiguity. -/
def convertBit (ldM : Nat) (input : Nat → R) (ambiguity p : Nat) : R :=
  if ambiguity = 0 then input p
  else
    let bitsIn := convertToChar ldM fun j => input (ldM * (p / ldM) + j)
    let symbolIndex := mpskRevMap (2 ^ ldM) bitsIn
    let bitsOut := mpskMap (2 ^ ldM) ((2 ^ ldM + symbolIndex - ambiguity) % 2 ^ ldM)
    let diff := bitsIn ^^^ bitsOut
    if extractBitLeft diff (8 - ldM + p % ldM) then -input p else input p

/-- `convert_ambiguity` writes the bits of all whole symbols. Without an ambiguity it
copies every bit. -/
def convertAmbiguity (ldM : Nat) (input : Nat → R) (numBits ambiguity : Nat) : Nat → R :=
  fun p =>
    if p < (if ambiguity = 0 then numBits else getLowerMul ldM numBits) then
      convertBit ldM input ambiguity p
    else 0

theorem convertAmbiguity_of_lt {ldM : Nat} (input : Nat → R) {numBits : Nat}
    (hdvd : ldM ∣ numBits) (ambiguity : Nat) {p : Nat} (hp : p < numBits) :
    convertAmbiguity ldM input numBits ambiguity p = convertBit ldM input ambiguity p := by
  rw [convertAmbiguity, getLowerMul_of_dvd hdvd, ite_self, if_pos hp]

/-- The conversion of a part of a stream that starts with a symbol is that part of the
converted stream. -/
theorem convertBit_shift {ldM start : Nat} (hpos : 0 < ldM) (hdvd : ldM ∣ start)
    (stream : Nat → R) (ambiguity p : Nat) :
    convertBit ldM (fun i => stream (start + i)) ambiguity p =
      convertBit ldM stream ambiguity (start + p) := by
  obtain ⟨symbols, rfl⟩ := hdvd
  have hdiv : (ldM * symbols + p) / ldM = symbols + p / ldM := Nat.mul_add_div hpos symbols p
  have hmod : (ldM * symbols + p) % ldM = p % ldM := Nat.mul_add_mod ldM symbols p
  unfold convertBit
  simp only [hdiv, hmod, Nat.mul_add, Nat.add_assoc]

end Convert

end GrCcsds.Ambiguity
