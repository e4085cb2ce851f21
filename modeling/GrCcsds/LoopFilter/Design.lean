import GrCcsds.Foundation.Newton
import GrCcsds.LoopFilter.Linear
import Mathlib.Tactic.FieldSimp
import Mathlib.Tactic.LinearCombination
import Mathlib.Tactic.NormNum
import Mathlib.Tactic.Positivity

/-! # The gains of the loop filter

`ccsds_make_lpf2` finds the gains for a loop bandwidth and a damping factor by
ten steps of Newton's method. The damping of the result is exact and the loop
bandwidth is not below the wanted one, from which it differs by a part that
squares in every step.
-/

namespace GrCcsds.LoopFilter

open Foundation

section Definitions

variable {K : Type*} [Field K]

def rhoNewtonF (x a b c : K) : K := x ^ 3 + a * x ^ 2 + b * x + c

def rhoNewtonDf (x a b : K) : K := ((3 : Nat) : K) * x ^ 2 + ((2 : Nat) : K) * a * x + b

/-- The coefficients of the polynomial for `rho`. -/
structure Coefficients (K : Type*) where
  a : K
  b : K
  c : K

namespace Coefficients

variable (coeffs : Coefficients K)

def newtonF (x : K) : K := rhoNewtonF x coeffs.a coeffs.b coeffs.c

def newtonDf (x : K) : K := rhoNewtonDf x coeffs.a coeffs.b

def newtonStep (x : K) : K := Newton.step coeffs.newtonF coeffs.newtonDf x

/-- The value of `rho` after some rounds. -/
def newtonRho (rounds : Nat) : K := coeffs.newtonStep^[rounds] 0

/-- The curvature of the polynomial at the first iterate, over the square of its slope at zero. -/
def bend : K := (((3 : Nat) : K) * (-coeffs.c / coeffs.b) + coeffs.a) / coeffs.b ^ 2

end Coefficients

def coefficients (loopBw dampingFactorSquared : K) : Coefficients K where
  a := ((4 : Nat) : K) * loopBw * (dampingFactorSquared - 1) +
    ((2 : Nat) : K) * dampingFactorSquared + ((2 : Nat) : K)
  b := ((8 : Nat) : K) * loopBw * (dampingFactorSquared - 1) +
    ((4 : Nat) : K) * dampingFactorSquared + 1
  c := -((4 : Nat) : K) * loopBw

def gammaOf (dampingFactorSquared sSlope rho : K) : K :=
  ((4 : Nat) : K) * dampingFactorSquared * rho / (sSlope * (1 + rho) * (1 + rho))

def ccsdsMakeLpf2 (loopBw dampingFactorSquared sSlope : K) : Lpf2 K :=
  let rho := (coefficients loopBw dampingFactorSquared).newtonRho 10
  Lpf2.make (gammaOf dampingFactorSquared sSlope rho) rho

/-- The overload with one argument. -/
def ccsdsMakeLpf2Default (loopBw : K) : Lpf2 K := ccsdsMakeLpf2 loopBw (1 / ((2 : Nat) : K)) 1

/-- The damping factor of a filter, formula (5.3.86) of the header, squared. -/
def dampingSquared (sSlope : K) (f : Lpf2 K) : K :=
  (1 + f.rho) ^ 2 * (f.gamma * sSlope) / (((4 : Nat) : K) * f.rho)

/-- The loop bandwidth of a filter, formula (5.3.92) of the header. -/
def loopBandwidth (sSlope : K) (f : Lpf2 K) : K :=
  (((2 : Nat) : K) * f.rho + f.gamma * sSlope * (((2 : Nat) : K) + f.rho)) /
    (((8 : Nat) : K) - ((2 : Nat) : K) * f.gamma * sSlope * (((2 : Nat) : K) + f.rho))

end Definitions

variable {K : Type*} [Field K] [LinearOrder K] [IsStrictOrderedRing K]

namespace Coefficients

omit [LinearOrder K] [IsStrictOrderedRing K] in
/-- The cubic is above its tangent by a square times a linear factor. -/
theorem newtonF_eq_tangent (coeffs : Coefficients K) (x y : K) :
    coeffs.newtonF y = coeffs.newtonF x + coeffs.newtonDf x * (y - x) +
      (y - x) ^ 2 * (y + 2 * x + coeffs.a) := by
  simp only [newtonF, newtonDf, rhoNewtonF, rhoNewtonDf, Nat.cast_ofNat]
  ring

omit [LinearOrder K] [IsStrictOrderedRing K] in
theorem newtonStep_zero (coeffs : Coefficients K) :
    coeffs.newtonStep 0 = -coeffs.c / coeffs.b := by
  simp [newtonStep, Newton.step, newtonF, newtonDf, rhoNewtonF, rhoNewtonDf, neg_div]

/-- The signs for which the polynomial is convex and has its root above zero. -/
structure Convex (coeffs : Coefficients K) : Prop where
  a_pos : 0 < coeffs.a
  b_pos : 0 < coeffs.b
  c_neg : coeffs.c < 0

namespace Convex

variable {coeffs : Coefficients K} (hcoeffs : coeffs.Convex)

include hcoeffs

theorem newton : Newton.Convex coeffs.newtonF coeffs.newtonDf := by
  have ha := hcoeffs.a_pos
  have hb := hcoeffs.b_pos
  constructor
  · intro x hx
    simp only [newtonDf, rhoNewtonDf, Nat.cast_ofNat]
    positivity
  · intro x y hx hy
    have hsquare : 0 ≤ (y - x) ^ 2 * (y + 2 * x + coeffs.a) := by positivity
    rw [newtonF_eq_tangent coeffs x y]
    linarith
  · simp only [newtonF, rhoNewtonF]
    linarith [hcoeffs.c_neg]

theorem newtonRho_pos (rounds : Nat) : 0 < coeffs.newtonRho (rounds + 1) :=
  hcoeffs.newton.iterate_succ_pos rounds

theorem newtonRho_le (rounds : Nat) : coeffs.newtonRho (rounds + 1) ≤ -coeffs.c / coeffs.b :=
  coeffs.newtonStep_zero ▸ hcoeffs.newton.iterate_succ_le rounds

theorem newtonF_newtonRho_nonneg (rounds : Nat) :
    0 ≤ coeffs.newtonF (coeffs.newtonRho (rounds + 1)) :=
  hcoeffs.newton.apply_iterate_succ_nonneg rounds

theorem newtonDf_newtonRho_pos (rounds : Nat) : 0 < coeffs.newtonDf (coeffs.newtonRho rounds) :=
  hcoeffs.newton.slope_pos (hcoeffs.newton.iterate_nonneg rounds)

/-- The value after a step is the square of the step times a positive factor. -/
theorem newtonF_newtonStep {x : K} (hx : 0 ≤ x) :
    coeffs.newtonF (coeffs.newtonStep x) =
      (coeffs.newtonStep x - x) ^ 2 * (coeffs.newtonStep x + 2 * x + coeffs.a) := by
  have htangent : coeffs.newtonF x + coeffs.newtonDf x * (coeffs.newtonStep x - x) = 0 :=
    hcoeffs.newton.tangent_step hx
  calc coeffs.newtonF (coeffs.newtonStep x)
    _ = coeffs.newtonF x + coeffs.newtonDf x * (coeffs.newtonStep x - x) +
          (coeffs.newtonStep x - x) ^ 2 * (coeffs.newtonStep x + 2 * x + coeffs.a) :=
        newtonF_eq_tangent coeffs x _
    _ = _ := by rw [htangent, zero_add]

theorem newtonStep_zero_pos : 0 < coeffs.newtonStep 0 := hcoeffs.newton.step_pos le_rfl

theorem bend_pos : 0 < coeffs.bend := by
  have ha := hcoeffs.a_pos
  have hb := hcoeffs.b_pos
  have hc := neg_pos.mpr hcoeffs.c_neg
  unfold bend
  positivity

theorem curved : Newton.Convex.Curved coeffs.newtonF coeffs.newtonDf coeffs.bend := by
  intro x hx hle hvalue
  have ha := hcoeffs.a_pos
  have hb := hcoeffs.b_pos
  have hbend := hcoeffs.bend_pos
  have hpos : 0 < coeffs.newtonStep x := hcoeffs.newton.step_pos hx
  have hnext : coeffs.newtonStep x ≤ x := hcoeffs.newton.step_le hx hvalue
  change x ≤ coeffs.newtonStep 0 at hle
  change coeffs.bend * coeffs.newtonF (coeffs.newtonStep x) ≤ _
  rw [newtonStep_zero] at hle
  rw [hcoeffs.newtonF_newtonStep hx]
  have hfactor : coeffs.newtonStep x + 2 * x + coeffs.a ≤
      3 * (-coeffs.c / coeffs.b) + coeffs.a := by linarith
  have hslope : coeffs.b ≤ coeffs.newtonDf x := by
    have hrest : 0 ≤ 3 * x ^ 2 + 2 * coeffs.a * x := by positivity
    simp only [newtonDf, rhoNewtonDf, Nat.cast_ofNat]
    linarith
  have hstep : (coeffs.newtonStep x - x) ^ 2 ≤ coeffs.newtonF x ^ 2 / coeffs.b ^ 2 := by
    have hlength : x - coeffs.newtonStep x ≤ coeffs.newtonF x / coeffs.b := by
      rw [newtonStep, Newton.step, sub_sub_cancel]
      exact div_le_div_of_nonneg_left hvalue hb hslope
    rw [← div_pow, ← neg_sub x, neg_sq]
    exact pow_le_pow_left₀ (sub_nonneg.mpr hnext) hlength 2
  calc coeffs.bend * ((coeffs.newtonStep x - x) ^ 2 * (coeffs.newtonStep x + 2 * x + coeffs.a))
    _ ≤ coeffs.bend * (coeffs.newtonF x ^ 2 / coeffs.b ^ 2 *
          (3 * (-coeffs.c / coeffs.b) + coeffs.a)) := by gcongr
    _ = (coeffs.bend * coeffs.newtonF x) ^ 2 := by
        rw [bend]
        ring

section Accuracy

variable (hsum : 2 * coeffs.a = coeffs.b + 3) (hb : 2 ≤ coeffs.b)
  (hc : 2 * -coeffs.c ≤ coeffs.b)

include hc

theorem newtonStep_zero_le : coeffs.newtonStep 0 ≤ 1 / 2 := by
  rw [newtonStep_zero, div_le_iff₀ hcoeffs.b_pos]
  linarith

include hsum hb

/-- The first iterate leaves at most three quarters in units of the curvature. -/
theorem bend_mul_le : coeffs.bend * coeffs.newtonF (coeffs.newtonStep 0) ≤ 3 / 4 := by
  have hfirst := hcoeffs.newtonStep_zero_pos.le
  have hhalf := hcoeffs.newtonStep_zero_le hc
  have ha : coeffs.a = (coeffs.b + 3) / 2 := by linarith
  rw [hcoeffs.newtonF_newtonStep le_rfl, bend, ← newtonStep_zero, ha]
  set first := coeffs.newtonStep 0
  have hsquare : first ^ 2 ≤ 1 / 4 := by
    calc first ^ 2
      _ ≤ (1 / 2) ^ 2 := pow_le_pow_left₀ hfirst hhalf 2
      _ = 1 / 4 := by norm_num
  have hproduct : (3 * first + (coeffs.b + 3) / 2) *
      ((first - 0) ^ 2 * (first + 2 * 0 + (coeffs.b + 3) / 2)) ≤
      (3 * (1 / 2) + (coeffs.b + 3) / 2) * (1 / 4 * (1 / 2 + (coeffs.b + 3) / 2)) := by
    rw [sub_zero, mul_zero, add_zero]
    gcongr
  rw [div_mul_eq_mul_div, div_le_iff₀ (by positivity)]
  -- at the smallest slope both sides agree
  have hrest : 0 ≤ (coeffs.b - 2) * (11 * coeffs.b + 12) := mul_nonneg (by linarith) (by linarith)
  linarith

theorem newtonF_first_le : coeffs.newtonF (coeffs.newtonStep 0) ≤ 3 / 4 * -coeffs.c := by
  have hfirst := hcoeffs.newtonStep_zero_pos.le
  have hhalf := hcoeffs.newtonStep_zero_le hc
  have hapos := hcoeffs.a_pos
  have hscaled : coeffs.newtonStep 0 * coeffs.b = -coeffs.c := by
    rw [newtonStep_zero, div_mul_cancel₀ _ hcoeffs.b_pos.ne']
  rw [hcoeffs.newtonF_newtonStep le_rfl]
  calc (coeffs.newtonStep 0 - 0) ^ 2 * (coeffs.newtonStep 0 + 2 * 0 + coeffs.a)
    _ = coeffs.newtonStep 0 * (coeffs.newtonStep 0 * (coeffs.newtonStep 0 + coeffs.a)) := by ring
    _ ≤ coeffs.newtonStep 0 * (1 / 2 * (1 / 2 + coeffs.a)) := by gcongr
    _ ≤ coeffs.newtonStep 0 * (3 / 4 * coeffs.b) :=
        mul_le_mul_of_nonneg_left (by linarith) hfirst
    _ = 3 / 4 * -coeffs.c := by rw [mul_left_comm, hscaled]

/-- After the first round every round squares the part of the constant term that is left. -/
theorem newtonF_newtonRho_le (rounds : Nat) :
    coeffs.newtonF (coeffs.newtonRho (rounds + 1)) ≤ (3 / 4) ^ 2 ^ rounds * -coeffs.c := by
  have hbend := hcoeffs.bend_pos
  have hiterate : coeffs.bend * coeffs.newtonF (coeffs.newtonRho (rounds + 1)) ≤
      (coeffs.bend * coeffs.newtonF (coeffs.newtonStep 0)) ^ 2 ^ rounds :=
    hcoeffs.newton.apply_iterate_le hbend.le hcoeffs.curved rounds
  have hstart := hcoeffs.bend_mul_le hsum hb hc
  have hfirst := hcoeffs.newtonF_first_le hsum hb hc
  have hvalue : 0 ≤ coeffs.newtonF (coeffs.newtonStep 0) :=
    hcoeffs.newton.apply_step_nonneg le_rfl
  obtain ⟨more, hmore⟩ := Nat.exists_eq_succ_of_ne_zero (Nat.two_pow_pos rounds).ne'
  rw [hmore, pow_succ', mul_assoc] at hiterate
  calc coeffs.newtonF (coeffs.newtonRho (rounds + 1))
    _ ≤ coeffs.newtonF (coeffs.newtonStep 0) *
          (coeffs.bend * coeffs.newtonF (coeffs.newtonStep 0)) ^ more :=
        le_of_mul_le_mul_left hiterate hbend
    _ ≤ 3 / 4 * -coeffs.c * (3 / 4) ^ more := by
        have hc := neg_pos.mpr hcoeffs.c_neg
        gcongr
    _ = (3 / 4) ^ 2 ^ rounds * -coeffs.c := by
        rw [hmore, pow_succ']
        ring

end Accuracy

end Convex

end Coefficients

section Formulas

variable {d sSlope rho : K}

theorem gammaOf_mul_sSlope (hs : 0 < sSlope) :
    gammaOf d sSlope rho * sSlope = 4 * d * rho / (1 + rho) ^ 2 := by
  rw [gammaOf, Nat.cast_ofNat]
  field_simp

theorem dampingSquared_make (hs : 0 < sSlope) (hrho : 0 < rho) :
    dampingSquared sSlope (Lpf2.make (gammaOf d sSlope rho) rho) = d := by
  have hsum : 0 < 1 + rho := by linarith
  simp only [dampingSquared, Lpf2.make, Nat.cast_ofNat]
  rw [gammaOf_mul_sSlope hs]
  field_simp

/-- What the polynomial has left is what the loop bandwidth is off. -/
theorem loopBandwidth_make (loopBw : K) (hs : 0 < sSlope) (hrho : 0 < rho) (hd : d ≤ 1) :
    loopBandwidth sSlope (Lpf2.make (gammaOf d sSlope rho) rho) =
      loopBw + (coefficients loopBw d).newtonF rho / (4 * (1 + (1 - d) * (rho * (rho + 2)))) := by
  have hsum : 0 < 1 + rho := by linarith
  have hcomplement : 0 ≤ 1 - d := by linarith
  have hdivisor : 0 < 1 + (1 - d) * (rho * (rho + 2)) := by positivity
  simp only [loopBandwidth, Lpf2.make, Nat.cast_ofNat]
  have hdenominator : 8 - 2 * gammaOf d sSlope rho * sSlope * (2 + rho) =
      8 * (1 + (1 - d) * (rho * (rho + 2))) / (1 + rho) ^ 2 := by
    rw [mul_assoc 2, gammaOf_mul_sSlope hs]
    field_simp
    ring
  rw [hdenominator, gammaOf_mul_sSlope hs]
  simp only [Coefficients.newtonF, rhoNewtonF, coefficients, Nat.cast_ofNat]
  field_simp
  ring

theorem stable_make (hs : 0 < sSlope) (hrho : 0 < rho) (hpos : 0 < d) (hd : d ≤ 1) :
    (Lpf2.make (gammaOf d sSlope rho) rho).Stable sSlope := by
  have hsum : 0 < 1 + rho := by linarith
  have hproduct : d * rho ≤ rho := mul_le_of_le_one_left hrho.le hd
  refine ⟨hrho, ?_, ?_, ?_⟩ <;> simp only [Lpf2.make, gammaOf_mul_sSlope hs]
  · positivity
  · rw [div_le_one (by positivity)]
    linarith [sq_nonneg (1 - rho)]
  · rw [div_mul_eq_mul_div, div_lt_iff₀ (by positivity)]
    have hsquare : 0 ≤ (1 - d) * (rho * (rho + 2)) :=
      mul_nonneg (by linarith) (by positivity)
    linarith

end Formulas

/-- The parameters for which every division of the design has a positive divisor. -/
structure Designable (loopBw dampingFactorSquared : K) : Prop where
  loopBw_pos : 0 < loopBw
  damping_pos : 0 < dampingFactorSquared
  damping_le : dampingFactorSquared ≤ 1
  slope_pos : 0 < (coefficients loopBw dampingFactorSquared).b

variable {loopBw d sSlope : K}

omit [LinearOrder K] [IsStrictOrderedRing K] in
theorem two_mul_a (loopBw d : K) :
    2 * (coefficients loopBw d).a = (coefficients loopBw d).b + 3 := by
  simp only [coefficients, Nat.cast_ofNat]
  ring

theorem Designable.convex (hdesign : Designable loopBw d) : (coefficients loopBw d).Convex where
  a_pos := by linarith [two_mul_a loopBw d, hdesign.slope_pos]
  b_pos := hdesign.slope_pos
  c_neg := by
    simp only [coefficients, Nat.cast_ofNat]
    linarith [hdesign.loopBw_pos]

theorem designable_default (hpos : 0 < loopBw) (hlt : loopBw < 3 / 4) :
    Designable loopBw (1 / 2) where
  loopBw_pos := hpos
  damping_pos := by norm_num
  damping_le := by norm_num
  slope_pos := by
    simp only [coefficients, Nat.cast_ofNat]
    linarith

theorem Designable.stable (hdesign : Designable loopBw d) (hs : 0 < sSlope) :
    (ccsdsMakeLpf2 loopBw d sSlope).Stable sSlope :=
  stable_make hs (hdesign.convex.newtonRho_pos 9) hdesign.damping_pos hdesign.damping_le

/-- A loop with the gains follows every carrier, from every state of the filter. -/
theorem Designable.follows [Archimedean K] (hdesign : Designable loopBw d) (hs : 0 < sSlope)
    (phi xi ephi phase frequency : K) {small : K} (hsmall : 0 < small) :
    let f := { ccsdsMakeLpf2 loopBw d sSlope with phi := phi, xi := xi, ephi := ephi }
    ∃ N, ∀ n ≥ N, |f.phaseError sSlope phase frequency n| < small ∧
      |(f.followed sSlope phase frequency n).getFreqEstimate - frequency| < small := by
  intro f
  -- the states play no part for the gains
  obtain ⟨hrho, hgamma, hle, hgain⟩ := hdesign.stable hs
  have hstable : f.Stable sSlope := ⟨hrho, hgamma, hle, hgain⟩
  exact hstable.exists_phaseError_lt rfl phase frequency hsmall

/-- Newton's method never divides by zero, and the gains that it leads to are stable, have the
damping factor, and have a loop bandwidth that is not below the wanted one. Where the slope of the
polynomial at zero is large enough, nine squarings of three quarters are the part that the loop
bandwidth is above the wanted one. -/
theorem ccsdsMakeLpf2_meets_design (hdesign : Designable loopBw d) (hs : 0 < sSlope) :
    (∀ rounds, 0 < (coefficients loopBw d).newtonDf ((coefficients loopBw d).newtonRho rounds)) ∧
    (ccsdsMakeLpf2 loopBw d sSlope).Stable sSlope ∧
    dampingSquared sSlope (ccsdsMakeLpf2 loopBw d sSlope) = d ∧
    loopBw ≤ loopBandwidth sSlope (ccsdsMakeLpf2 loopBw d sSlope) ∧
    (2 ≤ (coefficients loopBw d).b → 8 * loopBw ≤ (coefficients loopBw d).b →
      loopBandwidth sSlope (ccsdsMakeLpf2 loopBw d sSlope) ≤ (1 + (3 / 4) ^ 2 ^ 9) * loopBw) := by
  have hrho := hdesign.convex.newtonRho_pos 9
  have hvalue := hdesign.convex.newtonF_newtonRho_nonneg 9
  have hbandwidth := loopBandwidth_make loopBw hs hrho hdesign.damping_le
  have hcomplement : 0 ≤ (1 - d) * ((coefficients loopBw d).newtonRho 10 *
      ((coefficients loopBw d).newtonRho 10 + 2)) :=
    mul_nonneg (by linarith [hdesign.damping_le]) (by positivity)
  refine ⟨hdesign.convex.newtonDf_newtonRho_pos, hdesign.stable hs, dampingSquared_make hs hrho,
    ?_, ?_⟩
  · rw [ccsdsMakeLpf2, hbandwidth]
    exact le_add_of_nonneg_right (div_nonneg hvalue (by linarith))
  · intro htwo hbw
    have hleft := hdesign.convex.newtonF_newtonRho_le (two_mul_a loopBw d) htwo
      (by simp only [coefficients, Nat.cast_ofNat] at hbw ⊢; linarith) 9
    have hconstant : -(coefficients loopBw d).c = loopBw * 4 := by
      simp only [coefficients, Nat.cast_ofNat]
      ring
    have hbwpos := hdesign.loopBw_pos
    rw [hconstant] at hleft
    rw [ccsdsMakeLpf2, hbandwidth, add_mul, one_mul, add_le_add_iff_left,
      div_le_iff₀ (by linarith)]
    calc (coefficients loopBw d).newtonF ((coefficients loopBw d).newtonRho 10)
      _ ≤ (3 / 4) ^ 2 ^ 9 * loopBw * 4 := (mul_assoc _ loopBw 4).symm ▸ hleft
      _ ≤ _ := by
          gcongr
          linarith

/-- The default damping factor with a loop bandwidth of one percent. -/
theorem ccsdsMakeLpf2_meets_design_default :
    (ccsdsMakeLpf2Default (1 / 100 : ℚ)).Stable 1 ∧
    loopBandwidth 1 (ccsdsMakeLpf2Default (1 / 100 : ℚ)) ≤ (1 + (3 / 4) ^ 2 ^ 9) * (1 / 100) := by
  obtain ⟨-, hstable, -, -, hbandwidth⟩ := ccsdsMakeLpf2_meets_design
    (designable_default (by norm_num : 0 < (1 / 100 : ℚ)) (by norm_num)) one_pos
  exact ⟨hstable, hbandwidth (by norm_num [coefficients]) (by norm_num [coefficients])⟩

end GrCcsds.LoopFilter
