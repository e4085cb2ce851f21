import Mathlib.Algebra.Order.Group.Nat
import Mathlib.Tactic.Common

/-! # Arithmetic helpers shared by the signal processing blocks

The templates of `ccsds_utils.h`. Lengths, counters and offsets are natural
numbers; a block whose behaviour depends on the width of an unsigned type
reduces the affected expression explicitly.
-/

namespace GrCcsds.Utils

/-- The number of values of `uint64_t` and `size_t`. -/
def size64 : Nat := 2 ^ 64

/-- The number of values of `unsigned int`. -/
def size32 : Nat := 2 ^ 32

def pickLarger {α : Type} [LT α] [DecidableLT α] (a b : α) : α := if b < a then a else b

def pickSmaller {α : Type} [LT α] [DecidableLT α] (a b : α) : α := if a < b then a else b

/-- Difference of two unsigned values that stops at zero. -/
def minusCapZero (minuend subtrahend : Nat) : Nat :=
  if minuend ≥ subtrahend then minuend - subtrahend else 0

/-- Difference of two unsigned 64-bit values. -/
def minusWrap (minuend subtrahend : Nat) : Nat := (minuend + size64 - subtrahend) % size64

/-- Sum of an unsigned and a signed value that stops at zero. -/
def addSignedToUnsigned (summandUnsigned : Nat) (summandSigned : Int) : Nat :=
  if summandSigned ≥ 0 then summandUnsigned + summandSigned.toNat
  else if summandUnsigned ≥ (-summandSigned).toNat then
    summandUnsigned - (-summandSigned).toNat
  else 0

def divideFloor (num divisor : Nat) : Nat := num / divisor

def divideCeil (num divisor : Nat) : Nat :=
  if num % divisor = 0 then num / divisor else num / divisor + 1

def updateNobranch {α : Type} (value : α) (update : Bool) (newValue : α) : α :=
  if update then newValue else value

@[simp] theorem minusCapZero_eq_sub (minuend subtrahend : Nat) :
    minusCapZero minuend subtrahend = minuend - subtrahend := by
  unfold minusCapZero
  split <;> omega

@[simp] theorem pickSmaller_eq_min (a b : Nat) : pickSmaller a b = min a b := by
  unfold pickSmaller
  split <;> omega

theorem addSignedToUnsigned_eq_toNat (summandUnsigned : Nat) (summandSigned : Int) :
    addSignedToUnsigned summandUnsigned summandSigned =
      ((summandUnsigned : Int) + summandSigned).toNat := by
  unfold addSignedToUnsigned
  split
  · omega
  · split <;> omega

theorem divideCeil_succ (num divisor : Nat) :
    divideCeil (num + 1) divisor = num / divisor + 1 := by
  unfold divideCeil
  split
  next hdvd => exact Nat.succ_div_of_dvd (Nat.dvd_of_mod_eq_zero hdvd)
  next hndvd =>
    rw [Nat.succ_div_of_not_dvd (fun hdvd => hndvd (Nat.mod_eq_zero_of_dvd hdvd))]

theorem divideCeil_le_of_le_mul {num divisor bound : Nat} (hle : num ≤ bound * divisor) :
    divideCeil num divisor ≤ bound := by
  cases num with
  | zero => simp [divideCeil]
  | succ num =>
      rw [divideCeil_succ]
      exact Nat.div_lt_of_lt_mul (Nat.mul_comm .. ▸ hle)

theorem le_mul_divideCeil (num : Nat) {divisor : Nat} (hdivisor : 0 < divisor) :
    num ≤ divisor * divideCeil num divisor := by
  cases num with
  | zero => exact Nat.zero_le _
  | succ num =>
      rw [divideCeil_succ]
      exact Nat.lt_mul_div_succ num hdivisor

end GrCcsds.Utils
