import Mathlib.Algebra.Order.Archimedean.Basic
import Mathlib.Algebra.Order.Field.Basic
import Mathlib.Tactic.FieldSimp
import Mathlib.Tactic.Linarith
import Mathlib.Tactic.LinearCombination
import Mathlib.Tactic.NormNum
import Mathlib.Tactic.Positivity
import Mathlib.Tactic.Ring

/-! # Linear recurrences of the second order

A sequence in which every number is a fixed combination of the two before it.
For coefficients in the stability triangle a quadratic form of two neighbours
never grows and shrinks by a fixed factor in every two steps, so that the
sequence stays near zero and goes to zero.
-/

namespace Foundation.SecondOrder

variable {K : Type*} [Field K]

def sequence (p q first second : K) : Nat → K
  | 0 => first
  | 1 => second
  | n + 2 => p * sequence p q first second (n + 1) - q * sequence p q first second n

/-- A sequence with the recurrence is the one with its first two numbers. -/
theorem eq_sequence {p q : K} {s : Nat → K} (hs : ∀ n, s (n + 2) = p * s (n + 1) - q * s n)
    (n : Nat) : s n = sequence p q (s 0) (s 1) n := by
  induction n using Nat.twoStepInduction with
  | zero => rfl
  | one => rfl
  | more n ih ihSucc => rw [hs, sequence, ihSucc, ih]

/-- The correlation between neighbours that the recurrence keeps. -/
def ratio (p q : K) : K := p / (1 + q)

/-- The quadratic form of a number and the one before it. -/
def energy (p q x y : K) : K := (y - ratio p q * x) ^ 2 + (1 - ratio p q ^ 2) * x ^ 2

def rate (p q : K) : K := 1 - (1 - q ^ 2) * (1 - ratio p q ^ 2) / 3

theorem energy_comm (p q x y : K) : energy p q x y = energy p q y x := by
  simp only [energy]
  ring

variable [LinearOrder K]

/-- The stability triangle. -/
structure Stable (p q : K) : Prop where
  q_lt : |q| < 1
  p_lt : |p| < 1 + q

namespace Stable

variable [IsStrictOrderedRing K] {p q : K} (hstable : Stable p q)

include hstable

theorem one_add_pos : 0 < 1 + q := by linarith [neg_lt_of_abs_lt hstable.q_lt]

theorem ratio_mul : ratio p q * (1 + q) = p := div_mul_cancel₀ p hstable.one_add_pos.ne'

theorem abs_ratio_lt : |ratio p q| < 1 := by
  rw [ratio, abs_div, abs_of_pos hstable.one_add_pos, div_lt_one hstable.one_add_pos]
  exact hstable.p_lt

theorem ratio_sq_lt : 0 < 1 - ratio p q ^ 2 := by
  have hsquare := (sq_lt_one_iff_abs_lt_one (ratio p q)).mpr hstable.abs_ratio_lt
  linarith

theorem q_sq_lt : 0 < 1 - q ^ 2 := by
  have hsquare := (sq_lt_one_iff_abs_lt_one q).mpr hstable.q_lt
  linarith

/-- A step takes away energy in proportion to the part that does not follow the ratio. -/
theorem energy_step (x y : K) :
    energy p q (p * x - q * y) x = energy p q x y - (1 - q ^ 2) * (y - ratio p q * x) ^ 2 := by
  have hp := hstable.ratio_mul
  have hnext : p * x - q * y = ratio p q * x - q * (y - ratio p q * x) := by
    linear_combination (-x) * hp
  rw [energy_comm, hnext]
  simp only [energy]
  ring

theorem energy_step_le (x y : K) : energy p q (p * x - q * y) x ≤ energy p q x y := by
  rw [hstable.energy_step x y]
  exact sub_le_self _ (mul_nonneg hstable.q_sq_lt.le (sq_nonneg _))

theorem energy_nonneg (x y : K) : 0 ≤ energy p q x y :=
  add_nonneg (sq_nonneg _) (mul_nonneg hstable.ratio_sq_lt.le (sq_nonneg _))

omit hstable in
theorem mul_sq_le_energy (x y : K) : (1 - ratio p q ^ 2) * x ^ 2 ≤ energy p q x y :=
  le_add_of_nonneg_left (sq_nonneg _)

theorem rate_nonneg : 0 ≤ rate p q := by
  have hproduct : (1 - q ^ 2) * (1 - ratio p q ^ 2) ≤ 1 * 1 :=
    mul_le_mul (sub_le_self 1 (sq_nonneg q)) (sub_le_self 1 (sq_nonneg _))
      hstable.ratio_sq_lt.le one_pos.le
  unfold rate
  linarith

theorem rate_lt_one : rate p q < 1 := by
  have hproduct := mul_pos hstable.q_sq_lt hstable.ratio_sq_lt
  unfold rate
  linarith

/-- What one step does not take away, the next step does. -/
theorem energy_step_step_le (x y : K) :
    energy p q (p * (p * x - q * y) - q * x) (p * x - q * y) ≤ rate p q * energy p q x y := by
  have hp := hstable.ratio_mul
  have hq := hstable.q_sq_lt
  have hr := hstable.ratio_sq_lt
  rw [hstable.energy_step (p * x - q * y) x, hstable.energy_step x y]
  -- the parts that two steps take away, in the coordinates of the energy
  set off := y - ratio p q * x with hoff
  set along := (1 - ratio p q ^ 2) * x with halong
  have hnext : x - ratio p q * (p * x - q * y) = along + ratio p q * q * off := by
    rw [halong, hoff]
    linear_combination (ratio p q * x) * hp
  have henergy : energy p q x y = off ^ 2 + (1 - ratio p q ^ 2) * x ^ 2 := rfl
  have hmixed : (ratio p q * q) ^ 2 ≤ 1 := by
    rw [mul_pow]
    exact mul_le_one₀ (by linarith) (sq_nonneg q) (by linarith)
  have hform : off ^ 2 + along ^ 2 ≤ 3 * (off ^ 2 + (along + ratio p q * q * off) ^ 2) := by
    have hsquare := sq_nonneg (2 * along + 3 * (ratio p q * q) * off)
    have hleft : 0 ≤ (1 - (ratio p q * q) ^ 2) * off ^ 2 :=
      mul_nonneg (by linarith) (sq_nonneg off)
    linarith [sq_nonneg off]
  have hpart : (1 - ratio p q ^ 2) * energy p q x y ≤ off ^ 2 + along ^ 2 := by
    have hshare : (1 - ratio p q ^ 2) * off ^ 2 ≤ off ^ 2 :=
      mul_le_of_le_one_left (sq_nonneg off) (sub_le_self 1 (sq_nonneg _))
    rw [henergy, halong]
    linarith
  have htaken : (1 - q ^ 2) * ((1 - ratio p q ^ 2) * energy p q x y) ≤
      (1 - q ^ 2) * (3 * (off ^ 2 + (along + ratio p q * q * off) ^ 2)) :=
    mul_le_mul_of_nonneg_left (hpart.trans hform) hq.le
  rw [hnext, rate]
  linarith

variable (first second : K)

theorem energy_sequence_succ_le (n : Nat) :
    energy p q (sequence p q first second (n + 1)) (sequence p q first second n) ≤
      energy p q second first := by
  induction n with
  | zero => exact le_rfl
  | succ n ih => exact (hstable.energy_step_le _ _).trans ih

/-- The energy shrinks geometrically. -/
theorem energy_sequence_le (n : Nat) :
    energy p q (sequence p q first second (2 * n + 1)) (sequence p q first second (2 * n)) ≤
      rate p q ^ n * energy p q second first := by
  induction n with
  | zero => simp [sequence]
  | succ n ih =>
      calc energy p q (sequence p q first second (2 * (n + 1) + 1))
            (sequence p q first second (2 * (n + 1)))
        _ ≤ rate p q * energy p q (sequence p q first second (2 * n + 1))
              (sequence p q first second (2 * n)) := hstable.energy_step_step_le _ _
        _ ≤ rate p q * (rate p q ^ n * energy p q second first) :=
            mul_le_mul_of_nonneg_left ih hstable.rate_nonneg
        _ = rate p q ^ (n + 1) * energy p q second first := by ring

/-- Both numbers of every pair are small if the energy is. -/
theorem sq_sequence_le (n : Nat) :
    (1 - ratio p q ^ 2) * sequence p q first second (2 * n) ^ 2 ≤
        rate p q ^ n * energy p q second first ∧
      (1 - ratio p q ^ 2) * sequence p q first second (2 * n + 1) ^ 2 ≤
        rate p q ^ n * energy p q second first := by
  have henergy := hstable.energy_sequence_le first second n
  constructor
  · rw [energy_comm] at henergy
    exact (mul_sq_le_energy _ _).trans henergy
  · exact (mul_sq_le_energy _ _).trans henergy

/-- A bound that the energy has at the start holds for ever. -/
theorem abs_sequence_le {bound : K} (hbound : 0 ≤ bound)
    (hstart : energy p q second first ≤ (1 - ratio p q ^ 2) * bound ^ 2) (n : Nat) :
    |sequence p q first second n| ≤ bound := by
  have henergy := (hstable.energy_sequence_succ_le first second n).trans hstart
  rw [energy_comm] at henergy
  have hsquare := (mul_sq_le_energy _ _).trans henergy
  exact abs_le_of_sq_le_sq (le_of_mul_le_mul_left hsquare hstable.ratio_sq_lt) hbound

/-- The sequence goes to zero. -/
theorem exists_abs_sequence_lt [Archimedean K] {small : K} (hsmall : 0 < small) :
    ∃ N, ∀ n ≥ N, |sequence p q first second n| < small := by
  have hr := hstable.ratio_sq_lt
  have htotal : 0 < energy p q second first + 1 := by
    linarith [hstable.energy_nonneg second first]
  obtain ⟨rounds, hrounds⟩ := exists_pow_lt_of_lt_one
    (div_pos (mul_pos hr (pow_pos hsmall 2)) htotal) hstable.rate_lt_one
  rw [lt_div_iff₀ htotal] at hrounds
  refine ⟨2 * rounds, fun n hn => ?_⟩
  obtain ⟨half, rfl | rfl⟩ := n.even_or_odd'
  all_goals
    obtain ⟨heven, hodd⟩ := hstable.sq_sequence_le first second half
    have hpow : rate p q ^ half ≤ rate p q ^ rounds :=
      pow_le_pow_of_le_one hstable.rate_nonneg hstable.rate_lt_one.le (by omega)
    have hle : rate p q ^ half * energy p q second first ≤
        rate p q ^ rounds * (energy p q second first + 1) :=
      mul_le_mul hpow (by linarith) (hstable.energy_nonneg _ _) (pow_nonneg hstable.rate_nonneg _)
    refine abs_lt_of_sq_lt_sq (lt_of_mul_lt_mul_left ?_ hr.le) hsmall.le
    linarith

end Stable

end Foundation.SecondOrder
