import Mathlib.Algebra.Order.Floor.Ring
import Mathlib.Tactic.Linarith

/-! # Integer part and remainder

A division by one has a quotient that is rounded down or one that is rounded
towards zero. The remainder of the second has the sign of the dividend, so it
belongs to the quotient of the first only where both agree.
-/

namespace Foundation.Fractional

variable {K : Type*} [Field K] [LinearOrder K] [FloorRing K]

/-- The remainder of a division by one that has the sign of the dividend. -/
def remainderOne (x : K) : K := if 0 ≤ x then Int.fract x else -Int.fract (-x)

theorem remainderOne_of_nonneg {x : K} (hx : 0 ≤ x) : remainderOne x = Int.fract x := if_pos hx

variable [IsStrictOrderedRing K]

/-- Below zero the remainder is that of the quotient rounded up. -/
theorem remainderOne_of_neg {x : K} (hx : x < 0) (hfract : Int.fract x ≠ 0) :
    remainderOne x = Int.fract x - 1 := by
  rw [remainderOne, if_neg (not_le.mpr hx), Int.fract_neg hfract, neg_sub]

theorem remainderOne_of_fract_eq_zero {x : K} (hfract : Int.fract x = 0) :
    remainderOne x = 0 := by
  unfold remainderOne
  split
  · exact hfract
  · rw [Int.fract_neg_eq_zero.mpr hfract, neg_zero]

/-- Where the remainder is the fractional part. -/
theorem remainderOne_eq_fract_iff (x : K) :
    remainderOne x = Int.fract x ↔ 0 ≤ x ∨ Int.fract x = 0 := by
  constructor
  · intro heq
    by_contra hnot
    obtain ⟨hneg, hfract⟩ := not_or.mp hnot
    rw [remainderOne_of_neg (not_le.mp hneg) hfract] at heq
    linarith
  · rintro (hnonneg | hfract)
    · exact remainderOne_of_nonneg hnonneg
    · rw [remainderOne_of_fract_eq_zero hfract, hfract]

/-- Quotient and remainder belong together if and only if the remainder is a fractional part. -/
theorem floor_add_remainderOne_iff (x : K) :
    (⌊x⌋ : K) + remainderOne x = x ↔ 0 ≤ x ∨ Int.fract x = 0 := by
  rw [← remainderOne_eq_fract_iff, Int.fract, eq_sub_iff_add_eq, add_comm]

end Foundation.Fractional
