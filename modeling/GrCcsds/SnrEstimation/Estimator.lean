import GrCcsds.Foundation.ExponentialAverage
import GrCcsds.FrameSync.Snr
import GrCcsds.GrComplex

/-! # The SNR estimator

`snr_est` with exact numbers. It averages the power of the samples and the
square of the power, and splits the mean power into a signal and a noise part.
The square root is a parameter.
-/

namespace GrCcsds.SnrEstimation

open Foundation FrameSync

/-- A square root that is never too large, such as one that is rounded down. -/
structure RoundsDown {K : Type} [Field K] [LinearOrder K] (root : K → K) : Prop where
  nonneg : ∀ x, 0 ≤ x → 0 ≤ root x
  mul_self_le : ∀ x, 0 ≤ x → root x * root x ≤ x

variable {K : Type} [Field K]

/-- The two averages. -/
structure Estimator (K : Type) where
  y1 : K
  y2 : K
deriving DecidableEq

def alpha : K := 1 / ((1000 : Nat) : K)

def beta : K := 1 - alpha

def Estimator.initial : Estimator K where
  y1 := 0
  y2 := 0

section Update

variable (root : K → K)

def abs (sample : GrComplex K) : K := root (sample.re * sample.re + sample.im * sample.im)

def power (sample : GrComplex K) : K := abs root sample * abs root sample

/-- The body of the loop of `update`. -/
def Estimator.updateSample (est : Estimator K) (sample : GrComplex K) : Estimator K where
  y1 := alpha * power root sample + beta * est.y1
  y2 := alpha * (power root sample * power root sample) + beta * est.y2

def Estimator.update (est : Estimator K) (input : List (GrComplex K)) : Estimator K :=
  input.foldl (Estimator.updateSample root) est

theorem Estimator.update_append (est : Estimator K) (first second : List (GrComplex K)) :
    est.update root (first ++ second) = (est.update root first).update root second :=
  List.foldl_append

/-- The averages are exponential averages of the powers and of their squares. -/
theorem Estimator.update_eq (est : Estimator K) (input : List (GrComplex K)) :
    est.update root input =
      ⟨ExponentialAverage.run alpha est.y1 (input.map (power root)),
        ExponentialAverage.run alpha est.y2 ((input.map (power root)).map fun x => x ^ 2)⟩ := by
  induction input generalizing est with
  | nil => rfl
  | cons sample rest ih =>
      rw [Estimator.update, List.foldl_cons, ← Estimator.update, ih]
      simp only [List.map_cons, ExponentialAverage.run_cons, ExponentialAverage.step,
        Estimator.updateSample, beta, sq]

end Update

variable [LinearOrder K]

/-- `minus_cap_zero` of two numbers. -/
def minusCapZero (minuend subtrahend : K) : K :=
  if minuend ≥ subtrahend then minuend - subtrahend else 0

namespace Estimator

variable (root : K → K) (est : Estimator K)

def signalLin : K := root (minusCapZero (((2 : Nat) : K) * est.y1 * est.y1) est.y2)

def noiseLin : K := est.y1 - est.signalLin root

def getSnr : Snr K :=
  Snr.ofEnergies root (.finite (est.signalLin root)) (.finite (est.noiseLin root))

end Estimator

variable [IsStrictOrderedRing K]

theorem isShare_alpha : ExponentialAverage.IsShare (alpha : K) where
  pos := by
    rw [alpha]
    positivity
  lt_one := by
    rw [alpha, div_lt_one (by positivity)]
    exact_mod_cast (show 1 < 1000 by decide)

theorem minusCapZero_nonneg (minuend subtrahend : K) : 0 ≤ minusCapZero minuend subtrahend := by
  unfold minusCapZero
  split
  next hle => exact sub_nonneg.mpr hle
  next => exact le_rfl

theorem le_minusCapZero (minuend subtrahend : K) :
    minuend - subtrahend ≤ minusCapZero minuend subtrahend := by
  unfold minusCapZero
  split
  next => exact le_rfl
  next hlt => exact sub_nonpos.mpr (le_of_not_ge hlt)

/-- What the averages of `n` powers keep: the square of the mean power is below the mean of the
squares, by a part that never vanishes. -/
structure Averages (n : Nat) (est : Estimator K) : Prop where
  y1 : 0 ≤ est.y1
  y2 : 0 ≤ est.y2
  sq_le : est.y1 ^ 2 ≤ (1 - beta ^ n) * est.y2

variable {root : K → K}

theorem power_nonneg (root : K → K) (sample : GrComplex K) : 0 ≤ power root sample :=
  mul_self_nonneg _

theorem averages_update (root : K → K) (input : List (GrComplex K)) :
    Averages input.length (Estimator.initial.update root input) := by
  have hpowers : ∀ x ∈ input.map (power root), 0 ≤ x := by
    intro x hx
    obtain ⟨sample, -, rfl⟩ := List.mem_map.mp hx
    exact power_nonneg root sample
  have hsquares : ∀ x ∈ (input.map (power root)).map fun x => x ^ 2, 0 ≤ x := by
    intro x hx
    obtain ⟨y, -, rfl⟩ := List.mem_map.mp hx
    exact sq_nonneg y
  rw [Estimator.update_eq]
  refine ⟨ExponentialAverage.run_nonneg isShare_alpha hpowers le_rfl,
    ExponentialAverage.run_nonneg isShare_alpha hsquares le_rfl, ?_⟩
  have hle := ExponentialAverage.run_sq_le isShare_alpha (input.map (power root))
  rwa [List.length_map] at hle

/-- The mean power is positive if and only if one of the samples has a power. -/
theorem y1_pos_iff (root : K → K) (input : List (GrComplex K)) :
    0 < (Estimator.initial.update root input).y1 ↔ ∃ sample ∈ input, power root sample ≠ 0 := by
  have hpowers : ∀ x ∈ input.map (power root), 0 ≤ x := by
    intro x hx
    obtain ⟨sample, -, rfl⟩ := List.mem_map.mp hx
    exact power_nonneg root sample
  rw [Estimator.update_eq]
  change 0 < ExponentialAverage.run alpha 0 (input.map (power root)) ↔ _
  rw [ExponentialAverage.run_pos_iff isShare_alpha hpowers le_rfl]
  constructor
  · rintro (hzero | ⟨_, hmem, hpos⟩)
    · exact absurd hzero (lt_irrefl 0)
    · obtain ⟨sample, hsample, rfl⟩ := List.mem_map.mp hmem
      exact ⟨sample, hsample, hpos.ne'⟩
  · rintro ⟨sample, hmem, hne⟩
    exact Or.inr ⟨_, List.mem_map_of_mem hmem, (power_nonneg root sample).lt_of_ne hne.symm⟩

theorem signalLin_nonneg (hroot : RoundsDown root) (est : Estimator K) :
    0 ≤ est.signalLin root :=
  hroot.nonneg _ (minusCapZero_nonneg _ _)

namespace Averages

variable {n : Nat} {est : Estimator K} (haverages : Averages n est)

include haverages

theorem sq_le_y2 : est.y1 ^ 2 ≤ est.y2 := by
  have hpart := mul_nonneg (pow_nonneg isShare_alpha.rest_pos.le n) haverages.y2
  have hle := haverages.sq_le
  rw [beta] at hle
  linarith

/-- The part under the root is never above the square of the mean power. -/
theorem minusCapZero_le :
    minusCapZero (((2 : Nat) : K) * est.y1 * est.y1) est.y2 ≤ est.y1 ^ 2 := by
  have hle := haverages.sq_le_y2
  unfold minusCapZero
  split
  next =>
      push_cast
      linarith
  next => exact sq_nonneg _

theorem signalLin_sq_le (hroot : RoundsDown root) : est.signalLin root ^ 2 ≤ est.y1 ^ 2 := by
  rw [sq (est.signalLin root)]
  exact (hroot.mul_self_le _ (minusCapZero_nonneg _ _)).trans haverages.minusCapZero_le

theorem noiseLin_nonneg (hroot : RoundsDown root) : 0 ≤ est.noiseLin root :=
  sub_nonneg.mpr ((pow_le_pow_iff_left₀ (signalLin_nonneg hroot est) haverages.y1
    two_ne_zero).mp (haverages.signalLin_sq_le hroot))

/-- A mean power that is all signal is zero. -/
theorem noiseLin_pos_iff (hroot : RoundsDown root) : 0 < est.noiseLin root ↔ 0 < est.y1 := by
  constructor
  · intro hpos
    rw [Estimator.noiseLin] at hpos
    linarith [signalLin_nonneg hroot est]
  · intro hpos
    refine (haverages.noiseLin_nonneg hroot).lt_of_ne fun hzero => ?_
    have hsignal : est.signalLin root = est.y1 := (sub_eq_zero.mp hzero.symm).symm
    have hroot := hroot.mul_self_le _
      (minusCapZero_nonneg (((2 : Nat) : K) * est.y1 * est.y1) est.y2)
    change est.signalLin root * est.signalLin root ≤ _ at hroot
    rw [hsignal, ← sq] at hroot
    have hsquare : 0 < est.y1 ^ 2 := pow_pos hpos 2
    have hweight := haverages.sq_le
    have hpart : 0 < (beta : K) ^ n := pow_pos isShare_alpha.rest_pos n
    have hy2 : est.y2 ≤ est.y1 ^ 2 := by
      unfold minusCapZero at hroot
      split at hroot
      next =>
          push_cast at hroot
          linarith
      next => linarith
    have hy2_pos : 0 < est.y2 := hsquare.trans_le haverages.sq_le_y2
    linarith [mul_pos hpart hy2_pos]

/-- The energies of an SNR are numbers and not negative. -/
theorem hasEnergies_getSnr (hroot : RoundsDown root) : (est.getSnr root).HasEnergies root :=
  ⟨_, _, signalLin_nonneg hroot est, haverages.noiseLin_nonneg hroot, rfl⟩

end Averages

end GrCcsds.SnrEstimation
