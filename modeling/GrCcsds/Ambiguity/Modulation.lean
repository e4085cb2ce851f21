import GrCcsds.Ambiguity.Constellation
import GrCcsds.Softbits

/-! # Modulator and detector

A complex sample is given by its amplitude and its angle, a fraction of a turn
counterclockwise, so that `2.0*M_PI` is one. `none` is an exit of the program.
-/

namespace GrCcsds.Ambiguity

open Utils Softbits

structure Sample (R : Type) where
  amplitude : R
  angle : R
deriving DecidableEq, Repr

variable {R : Type} [Arithmetic R]

namespace Sample

instance : Mul (Sample R) where
  mul x y := ⟨x.amplitude * y.amplitude, x.angle + y.angle⟩

instance : Zero (Sample R) where
  zero := ⟨0, 0⟩

instance : One (Sample R) where
  one := ⟨1, 0⟩

theorem one_eq : (1 : Sample R) = ⟨1, 0⟩ := rfl

/-- Above half a turn clockwise and up to half a turn counterclockwise. -/
def atan2 (x : Sample R) : R := x.angle + Arithmetic.floor (1 / (2 : Nat) + -x.angle)

def magnitudeSquared (x : Sample R) : R := x.amplitude * x.amplitude

end Sample

/-- The entries of `make_psk_map` are written in order, those of `make_psk_const` at the
gray code of their number. Both exit at a gray code that is not below the order. -/
def pskConstStep (order : Nat) (diffPhasor : Sample R) :
    List (Sample R) × Sample R → Nat → Option (List (Sample R) × Sample R)
  | (map, phasor), i =>
    if togray i ≥ order then none else some (map.set (togray i) phasor, phasor * diffPhasor)

def makePskConst (order : Nat) : Option (List (Sample R)) :=
  let diffPhasor : Sample R := ⟨1, 1 / order⟩
  ((List.range order).foldlM (pskConstStep order diffPhasor)
    (List.replicate order 0, 1)).map Prod.fst

/-- The four combinations of the signs of real and imaginary part, scaled to one. -/
def makeQpskConst : List (Sample R) :=
  [⟨1, 1 / (8 : Nat)⟩, ⟨1, -(1 / (8 : Nat))⟩, ⟨1, (3 : Nat) / (8 : Nat)⟩,
    ⟨1, -((3 : Nat) / (8 : Nat))⟩]

def makeMpskConst (order : Nat) : Option (List (Sample R)) :=
  if order = 4 then some makeQpskConst else makePskConst order

def makeMpskMap (order : Nat) : Option (Nat → Nat) :=
  if order = 4 ∨ ∀ i < order, togray i < order then some (mpskMap order) else none

/-- `mpsk_mod_bc` -/
structure Modulator (R : Type) where
  order : Nat
  constellation : List (Sample R)

namespace Modulator

def make (order : Nat) : Option (Modulator R) :=
  (makeMpskConst order).map fun constellation => { order, constellation }

def work (mod : Modulator R) (input : List UInt8) : List (Sample R) :=
  input.map fun symbol => mod.constellation.getD (symbol.toNat % mod.order) 0

end Modulator

/-- `round(log(M) / log(2.0f))`, that is half the logarithm of twice the square, rounded down. -/
def getLdM (order : Nat) : Nat := Nat.log2 (2 * order ^ 2) / 2

/-- `mpsk_detector_soft_cf` -/
structure Detector (R : Type) where
  order : Nat
  ldM : Nat
  phaseOffset : R
  map : Nat → Nat

namespace Detector

def make (order : Nat) (phaseOffsetPoints : R) : Option (Detector R) :=
  if order > 256 then none
  else
    (makeMpskMap order).map fun map =>
      { order, ldM := getLdM order, phaseOffset := phaseOffsetPoints / order, map }

/-- The bits of the constellation point that is the closest one to a sample. -/
def symBits (det : Detector R) (x : Sample R) : Nat :=
  let shift : R := 1 / det.order / (2 : Nat)
  let tmp := Arithmetic.fmodOne (x.atan2 + 1 + -det.phaseOffset + shift) * det.order
  det.map (Arithmetic.toUInt64 (Arithmetic.floor tmp) % size32 % det.order)

def symbol (det : Detector R) (x : Sample R) : List R :=
  (List.range det.ldM).map fun j =>
    createFromSample
      (if (det.symBits x).testBit (det.ldM - 1 - j) then x.magnitudeSquared
        else -x.magnitudeSquared)

def work (det : Detector R) (input : List (Sample R)) : List R := input.flatMap det.symbol

end Detector

end GrCcsds.Ambiguity
