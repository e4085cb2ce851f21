import GrCcsds.GrComplex
import Mathlib.Algebra.Order.Field.Basic
import Mathlib.Tactic.Ring

/-! # The constellations of CCSDS

The points, the decisions and the soft decisions of the three constellations,
and the ambiguities that `frame_sync_config_impl` derives from them, in exact
arithmetic. The square root of two enters by its reciprocal.
-/

namespace GrCcsds.Constellations

variable {K : Type} [Field K] [LinearOrder K]

/-- `1.0f/std::sqrt(2.0f)`, the component of the points between the axes. -/
structure Component (K : Type) [Field K] [LinearOrder K] where
  value : K
  pos : 0 < value
  double_mul_self : value * value + value * value = 1

/-- What a constellation overrides of `gr::digital::constellation`. -/
structure Constellation (K : Type) [Field K] [LinearOrder K] where
  points : List (GrComplex K)
  decisionMaker : GrComplex K → Nat
  calcSoftDec : GrComplex K → (npwr : K) → List K

/-- The cast of a comparison to `unsigned int`. -/
def toUnsigned (b : Bool) : Nat := if b then 1 else 0

def bpskDecisionMaker (sample : GrComplex K) : Nat := toUnsigned (sample.re < 0)

def bpskCalcSoftDec (sample : GrComplex K) (npwr : K) : List K :=
  [-(((4 : Nat) : K) • sample).re / npwr]

/-- `constellation_ccsds_bpsk` -/
def ccsdsBpsk : Constellation K where
  points := [⟨1, 0⟩, ⟨-1, 0⟩]
  decisionMaker := bpskDecisionMaker
  calcSoftDec := bpskCalcSoftDec

/-- The real component determines the first bit, the imaginary one the second bit. -/
def qpskDecisionMaker (sample : GrComplex K) : Nat :=
  2 * toUnsigned (sample.re < 0) + toUnsigned (sample.im < 0)

def qpskCalcSoftDec (component : Component K) (sample : GrComplex K) (npwr : K) : List K :=
  [-((2 : Nat) : K) * component.value * sample.re / npwr,
    -((2 : Nat) : K) * component.value * sample.im / npwr]

/-- `constellation_ccsds_qpsk` -/
def ccsdsQpsk (component : Component K) : Constellation K where
  points :=
    [⟨component.value, component.value⟩, ⟨component.value, -component.value⟩,
      ⟨-component.value, component.value⟩, ⟨-component.value, -component.value⟩]
  decisionMaker := qpskDecisionMaker
  calcSoftDec := qpskCalcSoftDec component

def qpskAxisDecisionMaker (sample : GrComplex K) : Nat :=
  2 * toUnsigned (sample.im > sample.re) + toUnsigned (sample.im ≤ -sample.re)

/-- The soft decisions of the sample rotated away from the axes. -/
def qpskAxisCalcSoftDec (component : Component K) (sample : GrComplex K) (npwr : K) : List K :=
  let rotatedSample := sample * ⟨component.value, component.value⟩
  [-((2 : Nat) : K) * component.value * rotatedSample.re / npwr,
    -((2 : Nat) : K) * component.value * rotatedSample.im / npwr]

/-- `constellation_ccsds_qpsk_axis` -/
def ccsdsQpskAxis (component : Component K) : Constellation K where
  points := [⟨1, 0⟩, ⟨0, -1⟩, ⟨0, 1⟩, ⟨-1, 0⟩]
  decisionMaker := qpskAxisDecisionMaker
  calcSoftDec := qpskAxisCalcSoftDec component

section Rotation

variable (component : Component K) (z : GrComplex K)

/-- The coordinates after a turn by an eighth. -/
theorem re_mul_component :
    (z * ⟨component.value, component.value⟩).re = component.value * (z.re - z.im) := by
  rw [GrComplex.re_mul]
  ring

theorem im_mul_component :
    (z * ⟨component.value, component.value⟩).im = component.value * (z.re + z.im) := by
  rw [GrComplex.im_mul]
  ring

end Rotation

namespace Constellation

variable (con : Constellation K)

/-- The point of a symbol of the constellation. -/
def modulateSymbol (symbolBits : Nat) : GrComplex K := con.points.getD symbolBits 0

def detectAmbiguity (point : GrComplex K) : Nat := con.decisionMaker (point * con.modulateSymbol 0)

def getAmbiguitySymbol (ambiguity : Nat) : GrComplex K :=
  con.modulateSymbol ambiguity * star (con.modulateSymbol 0)

/-- What `frame_sync_impl` makes of a correlation. -/
def corrected (correlation : GrComplex K) : GrComplex K :=
  correlation * star (con.getAmbiguitySymbol (con.detectAmbiguity correlation))

end Constellation

end GrCcsds.Constellations
