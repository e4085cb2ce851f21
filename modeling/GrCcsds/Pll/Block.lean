import GrCcsds.Ambiguity.Modulation
import GrCcsds.Arithmetic
import GrCcsds.Foundation.Rounding
import GrCcsds.Foundation.Transition
import GrCcsds.LoopFilter.Design

/-! # The phase locked loop

`pll_cc_impl` in exact arithmetic, but for the range of the numbers that the
powers of the samples are stored in. Samples are given by amplitude and angle,
and angles are fractions of a turn, so that `M_PI` is one half. The temporary
arrays are lists; the frequency estimates that no one reads and the debug output
are left out.
-/

namespace GrCcsds.Pll

open Utils LoopFilter Foundation
open Ambiguity (Sample)
open ExactNumbers (exactArithmetic)

variable {K : Type} [Field K] [LinearOrder K] [FloorRing K]

structure Block (K : Type) where
  order : Nat
  filter : Lpf2 K

def Block.make (m : Nat) (loopBandwidth : K) : Block K where
  order := m
  filter := ccsdsMakeLpf2 loopBandwidth (1 / ((2 : Nat) : K)) 1

/-- What a store in a `complex<float>` makes of a sample. It may be anything for a magnitude outside
the range of the format, which becomes zero or infinite. -/
structure ComplexFloat (K : Type) [Field K] [LE K] where
  store : Sample K → Sample K
  store_eq : ∀ x, Format.binary32.leastNormal ≤ x.amplitude →
    x.amplitude ≤ Format.binary32.greatest → store x = x

/-- The amplitudes whose power has a magnitude inside the range. -/
structure Storable (order : Nat) (amplitude : K) : Prop where
  pos : 0 < amplitude
  leastNormal_le : Format.binary32.leastNormal ≤ amplitude ^ order
  le_greatest : amplitude ^ order ≤ Format.binary32.greatest

/-- A power of a sample, in a `complex<float>`. -/
def removeModulation (float : ComplexFloat K) (order : Nat) (x : Sample K) : Sample K :=
  float.store ⟨x.amplitude ^ order, order * x.angle⟩

omit [FloorRing K] in
theorem removeModulation_eq (float : ComplexFloat K) {order : Nat} {x : Sample K}
    (hstorable : Storable order x.amplitude) :
    removeModulation float order x = ⟨x.amplitude ^ order, order * x.angle⟩ :=
  float.store_eq _ hstorable.leastNormal_le hstorable.le_greatest

omit [FloorRing K] in
theorem storable_one [IsStrictOrderedRing K] (order : Nat) : Storable order (1 : K) where
  pos := one_pos
  leastNormal_le := by norm_num [Format.leastNormal, Format.binary32]
  le_greatest := by norm_num [Format.greatest, Format.binary32]

/-- The angle of zero is zero. -/
def calcPhase (order : Nat) (x : Sample K) : K :=
  if x.amplitude = 0 then 0 else @Sample.atan2 K (exactArithmetic K) x / order

def calcRotation (x : Sample K) (phase : K) : Sample K := ⟨x.amplitude, x.angle - phase⟩

/-- The samples that a call outputs. It consumes as many. -/
def Block.generalWork (float : ComplexFloat K) (fuel : Nat) (b : Block K) (noutputItems : Nat)
    (input : List (Sample K)) : Option (List (Sample K) × Block K) :=
  let num := pickSmaller noutputItems input.length
  let phases := (input.take num).map fun x => calcPhase b.order (removeModulation float b.order x)
  let pi : K := 1 / ((2 : Nat) : K)
  (b.filter.filterWrapped pi fuel (pi / b.order) phases).map fun (values, filter) =>
    (List.zipWith calcRotation (input.take num) (values.map Prod.fst), { b with filter })

/-- A call of `general_work` by the scheduler. -/
structure Call where
  noutputItems : Nat
  ninputItems : Nat

/-- The block in the flow graph, with all its output and the number of consumed samples. -/
structure Session (K : Type) where
  block : Block K
  out : List (Sample K)
  consumed : Nat

def Session.start (b : Block K) : Session K where
  block := b
  out := []
  consumed := 0

def Session.step (float : ComplexFloat K) (fuel : Nat) (input : Nat → Sample K) (s : Session K)
    (call : Call) : Option (Session K) :=
  (s.block.generalWork float fuel call.noutputItems
    ((List.range call.ninputItems).map fun i => input (s.consumed + i))).map fun (out, block) =>
      { block := block
        out := s.out ++ out
        consumed := s.consumed + out.length }

end GrCcsds.Pll
