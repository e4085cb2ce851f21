import GrCcsds.Foundation.Extended
import GrCcsds.FrameSync.Config
import Mathlib.Algebra.Field.Rat

/-! # SNRs and their interpolation

`snr` and `snr_interpolation` with exact floating point numbers. The assertions
of `pick_first_if_valid` and of the constructor of an interpolation are `none`.
-/

namespace GrCcsds.FrameSync

open Utils Foundation Extended

/-- A signal to noise ratio. -/
structure Snr (K : Type) where
  sqrtEs : Extended K
  n0 : Extended K
deriving DecidableEq

namespace Snr

variable {K : Type}

def INVALID : Snr K where
  sqrtEs := nan
  n0 := nan

def valid (s : Snr K) : Bool := s.sqrtEs.isNaN == false && s.n0.isNaN == false

def pickFirstIfValid (first second : Snr K) : Option (Snr K) :=
  if first.valid || second.valid then some (if first.valid then first else second) else none

theorem pickFirstIfValid_of_valid {first : Snr K} (hfirst : first.valid = true)
    (second : Snr K) : pickFirstIfValid first second = some first := by
  simp [pickFirstIfValid, hfirst]

theorem pickFirstIfValid_INVALID {second : Snr K} (hsecond : second.valid = true) :
    pickFirstIfValid INVALID second = some second := by
  simp only [pickFirstIfValid, hsecond, Bool.or_true, if_true]
  rfl

/-- Of two SNRs that are invalid or have a property, the one that is picked has it. -/
theorem exists_pickFirstIfValid {P : Snr K → Prop} (hvalid : ∀ s, P s → s.valid = true)
    {first second : Snr K} (hfirst : first = INVALID ∨ P first) (hany : P first ∨ P second) :
    ∃ picked, pickFirstIfValid first second = some picked ∧ P picked := by
  by_cases hP : P first
  · exact ⟨first, pickFirstIfValid_of_valid (hvalid first hP) second, hP⟩
  · obtain rfl : first = INVALID := hfirst.resolve_right hP
    have hsecond : P second := hany.resolve_left hP
    exact ⟨second, pickFirstIfValid_INVALID (hvalid second hsecond), hsecond⟩

variable [Field K] [LinearOrder K]

/-- The constructor from energies. -/
def ofEnergies (root : K → K) (es n0 : Extended K) : Snr K where
  sqrtEs := es.sqrt root
  n0 := n0

def es (s : Snr K) : Extended K := s.sqrtEs * s.sqrtEs

/-- The SNRs of energies that are numbers and not negative. -/
def HasEnergies (root : K → K) (s : Snr K) : Prop :=
  ∃ es n0 : K, 0 ≤ es ∧ 0 ≤ n0 ∧ s = ofEnergies root (finite es) (finite n0)

theorem ofEnergies_finite {es : K} (hes : 0 ≤ es) (root : K → K) (n0 : Extended K) :
    ofEnergies root (finite es) n0 = ⟨finite (root es), n0⟩ := by
  rw [ofEnergies, sqrt_finite hes]

/-- The SNRs of a signal energy that is not negative and a noise energy with a property. -/
def Measured (root : K → K) (p : K → Prop) (s : Snr K) : Prop :=
  ∃ es n0 : K, 0 ≤ es ∧ p n0 ∧ s = ofEnergies root (finite es) (finite n0)

theorem Measured.valid {root : K → K} {p : K → Prop} {s : Snr K} (hmeasured : s.Measured root p) :
    s.valid = true := by
  obtain ⟨es, n0, hes, -, rfl⟩ := hmeasured
  rw [ofEnergies_finite hes]
  rfl

theorem HasEnergies.valid {root : K → K} {s : Snr K} (henergies : s.HasEnergies root) :
    s.valid = true := Measured.valid (p := (0 ≤ ·)) henergies

end Snr

/-- The members of an `snr_interpolation`. -/
structure Interpolation (K : Type) where
  offsetStart : Nat
  blockLenScale : Extended K
  sqrtEs0 : Extended K
  n00 : Extended K
  sqrtEsM : Extended K
  esM : Extended K
  n0M : Extended K

namespace Interpolation

variable {K : Type}

def valid (s : Interpolation K) : Bool :=
  !s.sqrtEs0.isNaN && !s.n00.isNaN && !s.sqrtEsM.isNaN && !s.esM.isNaN && !s.n0M.isNaN

variable [Field K] [LinearOrder K]

/-- The scale between the symbols of a block and the interval from 0 to 1. -/
def scale (blockLength : Nat) : Extended K :=
  finite 1 / finite (minusCapZero blockLength 1 : K)

/-- The constructor from the SNRs at the ends of a block. -/
def make (root : K → K) (first last : Snr K) (offsetStart blockLength : Nat) :
    Option (Interpolation K) := do
  let start ← Snr.pickFirstIfValid first last
  let stop ← Snr.pickFirstIfValid last first
  let interpolation : Interpolation K :=
    { offsetStart
      blockLenScale := scale blockLength
      sqrtEs0 := start.es.sqrt root
      n00 := start.n0
      sqrtEsM := stop.es.sqrt root - start.es.sqrt root
      esM := stop.es - start.es
      n0M := stop.n0 - start.n0 }
  if interpolation.valid then some interpolation else none

/-- The members for SNRs that are numbers. -/
theorem make_finite [IsStrictOrderedRing K] {root : K → K} {first last : Snr K}
    {start stop startN0 stopN0 : K}
    (hstart : Snr.pickFirstIfValid first last = some ⟨finite start, finite startN0⟩)
    (hstop : Snr.pickFirstIfValid last first = some ⟨finite stop, finite stopN0⟩)
    (offsetStart blockLength : Nat) :
    make root first last offsetStart blockLength =
      some
        { offsetStart
          blockLenScale := scale blockLength
          sqrtEs0 := finite (root (start * start))
          n00 := finite startN0
          sqrtEsM := finite (root (stop * stop) - root (start * start))
          esM := finite (stop * stop - start * start)
          n0M := finite (stopN0 - startN0) } := by
  simp only [make, hstart, hstop, Option.bind_eq_bind, Option.bind_some, Snr.es,
    finite_mul_finite, sqrt_finite (mul_self_nonneg _), finite_sub_finite]
  rfl

variable (s : Interpolation K)

def getFractionWindow (pos : Nat) : Extended K := finite (pos : K) * s.blockLenScale

def sqrtEsWindow (pos : Nat) : Extended K := s.sqrtEs0 + s.sqrtEsM * s.getFractionWindow pos

def n0Window (pos : Nat) : Extended K := s.n00 + s.n0M * s.getFractionWindow pos

/-- The factor that `read_signal` computes for a symbol. -/
def factor (pos : Nat) : Extended K := s.sqrtEsWindow pos / s.n0Window pos

/-- The interpolations between numbers, with these noise energies at the ends. -/
structure Between (blockLength : Nat) (start stop : K) : Prop where
  blockLenScale : s.blockLenScale = scale blockLength
  n00 : s.n00 = finite start
  n0M : s.n0M = finite (stop - start)
  sqrtEs : ∃ first slope : K, s.sqrtEs0 = finite first ∧ s.sqrtEsM = finite slope

end Interpolation

/-- Samples are integers and floating point numbers are exact. -/
@[reducible] def exactPlatform : Platform where
  Sample := Int
  Float := Extended ℚ
  Snr := Snr ℚ
  Estimator := Unit
  bitsPerSymbol := 1
  zero := 0
  mul := fun x y => x * y
  conj := fun x => x
  normalise := fun x => x.sign
  dotProduct := fun xs ys => (List.zipWith (fun x y => x * y) xs ys).sum
  asmConj := fun _ => 1
  zeroFloat := finite 0
  lowest := finite (-2 ^ 128)
  addFloat := fun x y => x + y
  invalidSnr := Snr.INVALID
  initialEstimator := ()
  updateEstimator := fun _ _ => ()
  getSnr := fun _ => ⟨finite 1, finite 1⟩
  energyCorrection := fun _ _ x => finite (x.natAbs : ℚ)
  getAmbiguitySymbol := fun ambiguity => if ambiguity = 0 then 1 else -1
  softDecisionMaker := fun x _ => finite (x : ℚ)
  scores := fun x y => (finite (x : ℚ) - y, finite (x : ℚ))
  esStart := fun _ => finite 0
  esSlope := fun _ => finite 0
  n0Start := fun _ => finite 0
  n0Slope := fun _ => finite 0
  snrDbStart := fun _ => finite 0
  extraTags := .empty

end GrCcsds.FrameSync
