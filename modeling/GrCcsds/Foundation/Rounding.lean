import Mathlib.Algebra.Order.Field.Basic
import Mathlib.Algebra.Order.Floor.Ring
import Mathlib.Data.Int.Log
import Mathlib.Tactic.Linarith

/-! # Rounding to binary floating point

Rounding of the elements of an ordered field to the nearest number of a binary
format, where a tie goes to the even neighbour. Subnormal numbers keep the
spacing of the least normal ones. Overflow is not part of the rounding, but the
greatest number is known.
-/

namespace Foundation

section Integer

variable {K : Type*} [Field K] [LinearOrder K] [FloorRing K]

/-- The nearest integer, or the even one of two. -/
def nearestEven (x : K) : Int :=
  let below := ⌊x⌋
  if x - below < below + 1 - x ∨ x - below = below + 1 - x ∧ below % 2 = 0 then below
  else below + 1

theorem nearestEven_nonneg {x : K} (hx : 0 ≤ x) : 0 ≤ nearestEven x := by
  have hbelow := Int.floor_nonneg.mpr hx
  unfold nearestEven
  dsimp only
  split
  next => exact hbelow
  next => exact Int.le_add_one hbelow

variable [IsStrictOrderedRing K]

theorem nearestEven_le (x : K) : (nearestEven x : K) ≤ x + 1 / 2 := by
  have hbelow := Int.floor_le x
  unfold nearestEven
  dsimp only
  split
  next => linarith
  next hnot =>
    have habove : ⌊x⌋ + 1 - x ≤ x - ⌊x⌋ := not_lt.mp fun hlt => hnot (Or.inl hlt)
    push_cast
    linarith

@[simp] theorem nearestEven_zero : nearestEven (0 : K) = 0 := by
  simp [nearestEven]

end Integer

/-- A binary format: the number of significant bits and the exponent of the least normal
number. -/
structure Format where
  precision : Nat
  minExponent : Int

namespace Format

def binary32 : Format where
  precision := 24
  minExponent := -126

variable {K : Type*} [Field K] [LinearOrder K] [FloorRing K] [IsStrictOrderedRing K]
  (format : Format)

/-- The least normal number. -/
def leastNormal : K := (2 : Nat) ^ format.minExponent

/-- The greatest number. Its exponent and the least one add up to one. -/
def greatest : K :=
  ((2 : Nat) - (2 : Nat) ^ (1 - (format.precision : Int))) * (2 : Nat) ^ (1 - format.minExponent)

/-- The distance of the numbers of the format around a value. -/
def spacing (x : K) : K :=
  (2 : Nat) ^ (max (Int.log 2 |x|) format.minExponent + 1 - (format.precision : Int))

def round (x : K) : K := nearestEven (x / format.spacing x) * format.spacing x

theorem spacing_pos (x : K) : 0 < format.spacing x := zpow_pos (Nat.cast_pos.mpr Nat.two_pos) _

theorem spacing_le {x : K} (hx : 0 < x) :
    format.spacing x ≤ x * 2 ^ (1 - (format.precision : Int)) +
      2 ^ (format.minExponent + 1 - (format.precision : Int)) := by
  have hlog : (2 : K) ^ Int.log 2 x ≤ x := by
    exact_mod_cast Int.zpow_log_le_self Nat.one_lt_two hx
  have hunit : (0 : K) < 2 ^ (1 - (format.precision : Int)) := zpow_pos two_pos _
  have hleast : (0 : K) < 2 ^ (format.minExponent + 1 - (format.precision : Int)) :=
    zpow_pos two_pos _
  rw [spacing, abs_of_pos hx, Nat.cast_ofNat]
  rcases le_total (Int.log 2 x) format.minExponent with hsub | hnormal
  · rw [max_eq_right hsub]
    exact le_add_of_nonneg_left (mul_nonneg (le_of_lt hx) (le_of_lt hunit))
  · rw [max_eq_left hnormal, add_sub_assoc, zpow_add₀ two_ne_zero]
    exact le_add_of_le_of_nonneg (mul_le_mul_of_nonneg_right hlog (le_of_lt hunit))
      (le_of_lt hleast)

theorem round_nonneg {x : K} (hx : 0 ≤ x) : 0 ≤ format.round x := by
  have hspacing := format.spacing_pos x
  have hnearest := nearestEven_nonneg (div_nonneg hx (le_of_lt hspacing))
  exact mul_nonneg (Int.cast_nonneg hnearest) (le_of_lt hspacing)

@[simp] theorem round_zero : format.round (0 : K) = 0 := by
  rw [round, zero_div, nearestEven_zero, Int.cast_zero, zero_mul]

/-- Rounding adds at most half the spacing. -/
theorem round_le {x : K} (hx : 0 ≤ x) :
    format.round x ≤ x + (x * 2 ^ (1 - (format.precision : Int)) +
      2 ^ (format.minExponent + 1 - (format.precision : Int))) / 2 := by
  rcases eq_or_lt_of_le hx with rfl | hpos
  · have hleast : (0 : K) < 2 ^ (format.minExponent + 1 - (format.precision : Int)) :=
      zpow_pos two_pos _
    rw [round_zero, zero_mul, zero_add, zero_add]
    exact le_of_lt (half_pos hleast)
  · have hspacing := format.spacing_pos x
    calc format.round x
      _ ≤ (x / format.spacing x + 1 / 2) * format.spacing x :=
        mul_le_mul_of_nonneg_right (nearestEven_le _) (le_of_lt hspacing)
      _ = x + format.spacing x / 2 := by
        rw [add_mul, div_mul_cancel₀ _ (ne_of_gt hspacing), one_div_mul_eq_div]
      _ ≤ _ := by
        have hle := format.spacing_le hpos
        linarith

end Format

end Foundation
