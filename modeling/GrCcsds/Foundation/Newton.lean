import Mathlib.Algebra.Order.Field.Basic
import Mathlib.Data.Nat.Cast.Order.Field
import Mathlib.Logic.Function.Iterate
import Mathlib.Tactic.Linarith
import Mathlib.Tactic.Ring

/-! # Newton's method for a convex function

On the nonnegative numbers the function increases and lies above its tangents.
From the first step on, the iterates come down to its root and do not pass it.
Where the function is also not far above its tangents, every step squares what
is left of its value.
-/

namespace Foundation.Newton

variable {K : Type*} [Field K]

def step (f slope : K → K) (x : K) : K := x - f x / slope x

variable [LinearOrder K]

structure Convex (f slope : K → K) : Prop where
  slope_pos : ∀ {x}, 0 ≤ x → 0 < slope x
  tangent_le : ∀ {x y}, 0 ≤ x → 0 ≤ y → f x + slope x * (y - x) ≤ f y
  start_neg : f 0 < 0

namespace Convex

variable [IsStrictOrderedRing K] {f slope : K → K} {x y : K}

omit [IsStrictOrderedRing K] in
theorem tangent_step (hf : Convex f slope) (hx : 0 ≤ x) :
    f x + slope x * (step f slope x - x) = 0 := by
  have hslope := (hf.slope_pos hx).ne'
  rw [step, sub_sub_cancel_left, mul_neg, mul_div_cancel₀ _ hslope, add_neg_cancel]

/-- The tangent at an iterate is negative at zero, as the function is. -/
theorem step_pos (hf : Convex f slope) (hx : 0 ≤ x) : 0 < step f slope x := by
  have htangent := hf.tangent_le hx le_rfl
  have hzero := hf.tangent_step hx
  have hmul : 0 < slope x * step f slope x := by linarith [hf.start_neg]
  exact (mul_pos_iff_of_pos_left (hf.slope_pos hx)).mp hmul

theorem apply_step_nonneg (hf : Convex f slope) (hx : 0 ≤ x) : 0 ≤ f (step f slope x) :=
  hf.tangent_step hx ▸ hf.tangent_le hx (hf.step_pos hx).le

theorem step_le (hf : Convex f slope) (hx : 0 ≤ x) (hvalue : 0 ≤ f x) : step f slope x ≤ x :=
  sub_le_self x (div_nonneg hvalue (hf.slope_pos hx).le)

theorem iterate_nonneg (hf : Convex f slope) (n : Nat) : 0 ≤ (step f slope)^[n] 0 := by
  induction n with
  | zero => exact le_rfl
  | succ n ih =>
      rw [Function.iterate_succ_apply']
      exact (hf.step_pos ih).le

theorem iterate_succ_pos (hf : Convex f slope) (n : Nat) : 0 < (step f slope)^[n + 1] 0 := by
  rw [Function.iterate_succ_apply']
  exact hf.step_pos (hf.iterate_nonneg n)

theorem apply_iterate_succ_nonneg (hf : Convex f slope) (n : Nat) :
    0 ≤ f ((step f slope)^[n + 1] 0) := by
  rw [Function.iterate_succ_apply']
  exact hf.apply_step_nonneg (hf.iterate_nonneg n)

/-- From the first step on the iterates come down. -/
theorem iterate_succ_le (hf : Convex f slope) (n : Nat) :
    (step f slope)^[n + 1] 0 ≤ step f slope 0 := by
  induction n with
  | zero => exact le_rfl
  | succ n ih =>
      rw [Function.iterate_succ_apply']
      exact (hf.step_le (hf.iterate_nonneg _) (hf.apply_iterate_succ_nonneg n)).trans ih

/-- A bound of the curvature in units of the squared slope, up to the first iterate. -/
def Curved (f slope : K → K) (bend : K) : Prop :=
  ∀ x, 0 ≤ x → x ≤ step f slope 0 → 0 ≤ f x →
    bend * f (step f slope x) ≤ (bend * f x) ^ 2

/-- Every step squares the value in units of the curvature. -/
theorem apply_iterate_le (hf : Convex f slope) {bend : K} (hbend : 0 ≤ bend)
    (hcurved : Curved f slope bend) (n : Nat) :
    bend * f ((step f slope)^[n + 1] 0) ≤ (bend * f (step f slope 0)) ^ 2 ^ n := by
  induction n with
  | zero => simp
  | succ n ih =>
      have hnonneg := hf.apply_iterate_succ_nonneg n
      have hnext := hcurved _ (hf.iterate_nonneg (n + 1)) (hf.iterate_succ_le n) hnonneg
      rw [Function.iterate_succ_apply', pow_succ 2 n, pow_mul]
      exact hnext.trans (pow_le_pow_left₀ (mul_nonneg hbend hnonneg) ih 2)

end Convex

end Foundation.Newton
