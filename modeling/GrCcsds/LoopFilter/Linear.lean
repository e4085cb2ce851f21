import GrCcsds.Foundation.SecondOrder
import GrCcsds.LoopFilter

/-! # The linear loop

`filter_step` wraps nothing. Behind a detector with a slope its phase errors
follow a linear recurrence of the second order, whatever the state at the start
is. With stable gains the loop follows every carrier.
-/

namespace GrCcsds.LoopFilter

open Foundation

variable {K : Type*} [Field K] [LinearOrder K]

namespace Lpf2

/-- The returned value is the phase after the step. -/
def filterStep (f : Lpf2 K) (x : K) : K × Lpf2 K :=
  let ephi := x - f.phi
  let xi := f.xi + f.gamma * (f.rhob * ephi - f.ephi)
  let phi := f.phi + xi
  (phi, { f with xi := xi, phi := phi, ephi := ephi })

/-- The filter in a loop. A detector returns the phase errors of a carrier, scaled by its slope. -/
def follow (sSlope : K) (carrier : Nat → K) (f : Lpf2 K) : Nat → Lpf2 K
  | 0 => f
  | n + 1 =>
    let before := follow sSlope carrier f n
    (before.filterStep (before.phi + sSlope * (carrier n - before.phi))).2

/-- The gains for which the linear loop is stable, for a detector with a given slope. -/
structure Stable (sSlope : K) (f : Lpf2 K) : Prop where
  rho_pos : 0 < f.rho
  gamma_pos : 0 < f.gamma * sSlope
  gamma_le : f.gamma * sSlope ≤ 1
  gain_lt : f.gamma * sSlope * (2 + f.rho) < 4

section Follow

variable (sSlope phase frequency : K) (f : Lpf2 K)

/-- The filter after some samples of a carrier with a constant frequency. -/
def followed (n : Nat) : Lpf2 K := f.follow sSlope (fun n => phase + n * frequency) n

def phaseError (n : Nat) : K := phase + n * frequency - (f.followed sSlope phase frequency n).phi

omit [LinearOrder K]

/-- The steps do not change the gains. -/
theorem gains_followed (n : Nat) :
    (f.followed sSlope phase frequency n).gamma = f.gamma ∧
      (f.followed sSlope phase frequency n).rhob = f.rhob := by
  induction n with
  | zero => exact ⟨rfl, rfl⟩
  | succ n ih => exact ih

theorem ephi_followed (n : Nat) : (f.followed sSlope phase frequency (n + 1)).ephi =
    sSlope * f.phaseError sSlope phase frequency n := add_sub_cancel_left _ _

theorem xi_followed_succ (n : Nat) : (f.followed sSlope phase frequency (n + 1)).xi =
    frequency + f.phaseError sSlope phase frequency n -
      f.phaseError sSlope phase frequency (n + 1) := by
  have hphi : (f.followed sSlope phase frequency (n + 1)).phi =
      (f.followed sSlope phase frequency n).phi +
        (f.followed sSlope phase frequency (n + 1)).xi := rfl
  rw [phaseError, phaseError, hphi]
  push_cast
  ring

theorem xi_followed_succ_succ (n : Nat) : (f.followed sSlope phase frequency (n + 2)).xi =
    (f.followed sSlope phase frequency (n + 1)).xi +
      f.gamma * (f.rhob * (sSlope * f.phaseError sSlope phase frequency (n + 1)) -
        sSlope * f.phaseError sSlope phase frequency n) := by
  obtain ⟨hgamma, hrhob⟩ := f.gains_followed sSlope phase frequency (n + 1)
  rw [← hgamma, ← hrhob, ← ephi_followed, ← ephi_followed]
  rfl

/-- The recurrence of the phase errors. -/
theorem phaseError_add_two (hrhob : f.rhob = 1 + f.rho) (n : Nat) :
    f.phaseError sSlope phase frequency (n + 2) =
      (2 - f.gamma * sSlope * (1 + f.rho)) * f.phaseError sSlope phase frequency (n + 1) -
        (1 - f.gamma * sSlope) * f.phaseError sSlope phase frequency n := by
  have hxi := f.xi_followed_succ_succ sSlope phase frequency n
  rw [xi_followed_succ, xi_followed_succ, hrhob] at hxi
  linear_combination -hxi

end Follow

section Stable

variable [IsStrictOrderedRing K] {sSlope : K} {f : Lpf2 K}

/-- Stable gains lie inside the stability triangle of the recurrence. -/
theorem Stable.secondOrder (hstable : f.Stable sSlope) :
    SecondOrder.Stable (2 - f.gamma * sSlope * (1 + f.rho)) (1 - f.gamma * sSlope) := by
  obtain ⟨hrho, hgamma, hle, hgain⟩ := hstable
  have hproduct := mul_pos hgamma hrho
  constructor
  · rw [abs_lt]
    constructor <;> linarith
  · rw [abs_lt]
    constructor <;> linarith

/-- The phase error and the error of the frequency estimate go to zero, from every state. -/
theorem Stable.exists_phaseError_lt [Archimedean K] (hstable : f.Stable sSlope)
    (hrhob : f.rhob = 1 + f.rho) (phase frequency : K) {small : K} (hsmall : 0 < small) :
    ∃ N, ∀ n ≥ N, |f.phaseError sSlope phase frequency n| < small ∧
      |(f.followed sSlope phase frequency n).getFreqEstimate - frequency| < small := by
  have hsequence := SecondOrder.eq_sequence (f.phaseError_add_two sSlope phase frequency hrhob)
  obtain ⟨N, hN⟩ := hstable.secondOrder.exists_abs_sequence_lt
    (f.phaseError sSlope phase frequency 0) (f.phaseError sSlope phase frequency 1)
    (half_pos hsmall)
  refine ⟨N + 1, fun n hn => ?_⟩
  obtain ⟨n, rfl⟩ := Nat.exists_eq_succ_of_ne_zero (Nat.ne_zero_of_lt hn)
  have hbefore := hN n (by omega)
  have hafter := hN (n + 1) (by omega)
  rw [← hsequence] at hbefore hafter
  refine ⟨hafter.trans (half_lt_self hsmall), ?_⟩
  have hdifference : (f.followed sSlope phase frequency (n + 1)).getFreqEstimate - frequency =
      f.phaseError sSlope phase frequency n - f.phaseError sSlope phase frequency (n + 1) := by
    rw [getFreqEstimate, xi_followed_succ]
    ring
  rw [Nat.succ_eq_add_one, hdifference]
  linarith [abs_sub (f.phaseError sSlope phase frequency n)
    (f.phaseError sSlope phase frequency (n + 1))]

end Stable

end Lpf2

end GrCcsds.LoopFilter
