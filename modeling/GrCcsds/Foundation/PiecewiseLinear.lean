import Mathlib.Algebra.Order.Floor.Semiring
import Mathlib.Algebra.Order.Field.Basic
import Mathlib.Tactic.Linarith

/-! # Linear interpolation between support points

A sequence of values at the natural numbers is continued linearly between them.
Steps of at most one move to the next support point at the latest, so they can
be followed with a counter that is increased at most once a step.
-/

namespace Foundation.PiecewiseLinear

variable {K : Type*} [Field K] [LinearOrder K] [IsStrictOrderedRing K] [FloorSemiring K]

/-- The value at a position between two support points. -/
def interpolate (values : Nat → K) (x : K) : K :=
  values ⌊x⌋₊ + (values (⌊x⌋₊ + 1) - values ⌊x⌋₊) * (x - (⌊x⌋₊ : K))

omit [IsStrictOrderedRing K] in
theorem interpolate_of_floor_eq (values : Nat → K) {x : K} {j : Nat} (hfloor : ⌊x⌋₊ = j) :
    interpolate values x = values j + (values (j + 1) - values j) * (x - (j : K)) := by
  rw [interpolate, hfloor]

@[simp] theorem interpolate_zero (values : Nat → K) : interpolate values 0 = values 0 := by
  simp [interpolate]

/-- A step of at most one stays before the next support point. -/
theorem floor_eq_of_sub_lt {x y : K} (hx : 0 ≤ x) (hle : x ≤ y) (hlt : y - (⌊x⌋₊ : K) < 1) :
    ⌊y⌋₊ = ⌊x⌋₊ := by
  rw [Nat.floor_eq_iff (hx.trans hle)]
  have hfloor := Nat.floor_le hx
  constructor <;> linarith

/-- A step of at most one moves to the next support point. -/
theorem floor_eq_of_le_sub {x y : K} (hstep : y ≤ x + 1)
    (hge : 1 ≤ y - (⌊x⌋₊ : K)) : ⌊y⌋₊ = ⌊x⌋₊ + 1 := by
  have hnonneg : (0 : K) ≤ (⌊x⌋₊ : K) := Nat.cast_nonneg _
  rw [Nat.floor_eq_iff (by linarith)]
  have hfloor := Nat.lt_floor_add_one x
  push_cast
  constructor <;> linarith

end Foundation.PiecewiseLinear
