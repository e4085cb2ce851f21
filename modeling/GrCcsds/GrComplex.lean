import Mathlib.Algebra.QuadraticAlgebra.Basic

/-! # Complex samples

`gr_complex` in exact arithmetic: pairs of real and imaginary part with the
multiplication of complex numbers. The conjugate of `z` is `star z`.
-/

namespace GrCcsds

/-- Complex numbers with components in a ring. -/
abbrev GrComplex (K : Type) [Ring K] : Type := QuadraticAlgebra K (-1) 0

namespace GrComplex

variable {K : Type} [CommRing K]

theorem re_mul (x y : GrComplex K) : (x * y).re = x.re * y.re - x.im * y.im := by
  rw [QuadraticAlgebra.re_mul]
  ring

theorem im_mul (x y : GrComplex K) : (x * y).im = x.re * y.im + x.im * y.re := by
  rw [QuadraticAlgebra.im_mul]
  ring

theorem re_star (x : GrComplex K) : (star x).re = x.re := by
  rw [QuadraticAlgebra.re_star, zero_mul, add_zero]

theorem im_star (x : GrComplex K) : (star x).im = -x.im := by
  rw [QuadraticAlgebra.im_star]

end GrComplex

end GrCcsds
