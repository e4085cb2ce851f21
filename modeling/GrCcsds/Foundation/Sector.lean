import Mathlib.Algebra.Order.Floor.Ring
import Mathlib.Algebra.Order.Floor.Semiring
import Mathlib.Algebra.Order.Field.Basic
import Mathlib.Tactic.FieldSimp
import Mathlib.Tactic.Linarith
import Mathlib.Tactic.Ring

/-! # Sectors of a turn

Angles are fractions of a turn in an ordered field. A turn is divided into sectors
of the same size, which begin at the angle zero. Whole turns do not change the
sector.
-/

namespace Foundation.Sector

variable {K : Type*} [Field K] [LinearOrder K] [IsStrictOrderedRing K] [FloorRing K]

/-- The number of the sector of an angle. -/
def sector (n : Nat) (x : K) : Nat := ⌊Int.fract x * n⌋₊

/-- An angle less than half a turn away from zero, or half a turn counterclockwise. -/
def wrap (x : K) : K := x + ⌊1 / 2 - x⌋

omit [IsStrictOrderedRing K] in
theorem wrap_eq (x : K) : ∃ turns : ℤ, wrap x = x + turns := ⟨⌊1 / 2 - x⌋, rfl⟩

theorem neg_half_lt_wrap (x : K) : -(1 / 2) < wrap x := by
  have hfloor := Int.lt_floor_add_one (1 / 2 - x)
  unfold wrap
  linarith

@[simp] theorem sector_add_intCast (n : Nat) (x : K) (turns : ℤ) :
    sector n (x + turns) = sector n x := by
  simp [sector]

/-- The angles of a sector. -/
theorem sector_eq {n i : Nat} (hi : i < n) {part : K} (hnonneg : 0 ≤ part) (hlt : part < 1) :
    sector n ((i + part) / n) = i := by
  have hn : (0 : K) < n := Nat.cast_pos.mpr (Nat.zero_lt_of_lt hi)
  have hnext : (i : K) + 1 ≤ n := by exact_mod_cast hi
  have hfract : Int.fract ((i + part) / n) = (i + part) / n := by
    rw [Int.fract_eq_self]
    constructor
    · positivity
    · rw [div_lt_one hn]
      linarith
  rw [sector, hfract, div_mul_cancel₀ _ hn.ne', Nat.floor_eq_iff (by positivity)]
  constructor <;> linarith

/-- Half a sector further, an angle close to a boundary between sectors is in the sector
behind that boundary. -/
theorem sector_of_near {n i : Nat} (hi : i < n) {error : K} (herror : |error| < 1 / (2 * n))
    (turns : ℤ) : sector n (i / n + error + 1 / (2 * n) + turns) = i := by
  have hn : (0 : K) < n := Nat.cast_pos.mpr (Nat.zero_lt_of_lt hi)
  obtain ⟨hlow, hhigh⟩ := abs_lt.mp herror
  have hpart : i / n + error + 1 / (2 * n) = (i + (error * n + 1 / 2)) / n := by
    field_simp
    ring
  have hunit : 1 / (2 * n) * n = (1 / 2 : K) := by
    field_simp
  have hscaledLow := mul_lt_mul_of_pos_right hlow hn
  have hscaledHigh := mul_lt_mul_of_pos_right hhigh hn
  rw [neg_mul, hunit] at hscaledLow
  rw [hunit] at hscaledHigh
  rw [sector_add_intCast, hpart, sector_eq hi (by linarith) (by linarith)]

end Foundation.Sector
