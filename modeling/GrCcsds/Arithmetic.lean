import Mathlib.Algebra.Order.Field.Basic
import Mathlib.Algebra.Order.Floor.Ring

/-! # Floating point operations

The operations on floating point numbers that the blocks use, without any law,
and those of an ordered field as a model of exact numbers.
-/

namespace GrCcsds

/-- The operations on floating point numbers, of any precision and without any law. -/
class Arithmetic (R : Type) extends Zero R, One R, Neg R, Add R, Mul R, Div R, NatCast R,
    IntCast R, LT R, LE R where
  decidableLT : DecidableLT R
  decidableLE : DecidableLE R
  floor : R → R
  /-- `fmod` with the divisor one. -/
  fmodOne : R → R
  /-- The conversion to `uint64_t`. -/
  toUInt64 : R → Nat

attribute [reducible, instance] Arithmetic.decidableLT Arithmetic.decidableLE

/-- The laws of signs, which hold for floating point numbers too. -/
class SignLaws (R : Type) [Arithmetic R] : Prop where
  neg_neg (x : R) : - -x = x
  neg_pos (x : R) : 0 < -x ↔ x < 0
  asymm (x : R) : 0 < x → ¬ x < 0

namespace ExactNumbers

variable (K : Type) [Field K] [LinearOrder K] [FloorRing K]

/-- The operations of a field. `fmod` has the sign of its first argument. -/
@[reducible] scoped instance exactArithmetic : Arithmetic K where
  decidableLT := inferInstance
  decidableLE := inferInstance
  floor := fun x => (⌊x⌋ : K)
  fmodOne := fun x => if 0 ≤ x then Int.fract x else -Int.fract (-x)
  toUInt64 := fun x => ⌊x⌋₊

/-- The laws of signs hold in an ordered field. -/
scoped instance exactSignLaws [IsStrictOrderedRing K] : SignLaws K where
  neg_neg := neg_neg
  neg_pos := fun _ => neg_pos
  asymm := fun _ => lt_asymm

end ExactNumbers

end GrCcsds
