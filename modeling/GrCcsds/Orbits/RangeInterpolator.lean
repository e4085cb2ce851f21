import GrCcsds.Foundation.PiecewiseLinear
import GrCcsds.Foundation.Transition
import Mathlib.Data.Rat.Floor

/-! # Interpolation of the orbit range

`RangeInterpolator` in exact arithmetic. The range to the satellite is a function
of the time since the start time, which a start call replaces. The restart sets
back the counter of support points and keeps the counter of samples.
-/

namespace GrCcsds.Orbits

open Foundation

/-- The parameters of the constructor. -/
structure Config (K : Type) where
  sampRateOut : K
  computeRate : K

namespace Config

variable {K : Type} [Field K] (cfg : Config K)

/-- The distance of the support points in minutes. -/
def kTcMin : K := 1 / (cfg.computeRate * (60 : Nat))

/-- The distance of two samples, relative to that of the support points. -/
def kTsPerTc : K := cfg.computeRate / cfg.sampRateOut

end Config

/-- The members of the interpolator. `rangeSgp4` is the range since the start time. -/
structure RangeInterpolator (K : Type) where
  rangeSgp4 : K → K
  i : Nat
  j : Nat
  init : Bool
  rangeLeft : K
  rangeRight : K
  range0 : K
  m : K

namespace RangeInterpolator

variable {K : Type} [Field K] (cfg : Config K) (s : RangeInterpolator K)

/-- A constructed interpolator, whose other members have no value yet. -/
def construct : RangeInterpolator K := { s with i := 0, init := false }

def getRangeAt (tSince : K) : K := s.rangeSgp4 tSince

/-- `setStartTime`, `setStartTimeNow` and the `init` that both call. -/
def setStartTime (rangeSgp4 : K → K) : RangeInterpolator K :=
  let range0 := rangeSgp4 0
  let rangeRight := rangeSgp4 cfg.kTcMin - range0
  { s with
    rangeSgp4 := rangeSgp4
    j := 0
    init := true
    rangeLeft := 0
    rangeRight := rangeRight
    range0 := range0
    m := rangeRight - 0 }

def update : RangeInterpolator K :=
  let j := s.j + 1
  let rangeRight := s.getRangeAt (((j + 1 : Nat) : K) * cfg.kTcMin) - s.range0
  { s with
    j := j
    rangeLeft := s.rangeRight
    rangeRight := rangeRight
    m := rangeRight - s.rangeRight }

variable [LinearOrder K]

/-- One iteration of the loop of `computeDelta`. `t` counts all samples. -/
def sample (t : Nat) : K × RangeInterpolator K :=
  let mu := (t : K) * cfg.kTsPerTc - (s.j : K)
  if mu ≥ 1 then
    let s := s.update cfg
    (s.rangeLeft + s.m * (mu - 1), s)
  else (s.rangeLeft + s.m * mu, s)

/-- The loop over the samples. -/
def samples (cfg : Config K) : List Nat → RangeInterpolator K → List K × RangeInterpolator K
  | [], s => ([], s)
  | t :: rest, s =>
    let (result, next) := s.sample cfg t
    let (results, last) := samples cfg rest next
    (result :: results, last)

/-- The results and the interpolator behind a call, unless the assertion fails. -/
def computeDelta (numOut : Nat) : Option (List K × RangeInterpolator K) :=
  if s.init then
    let (results, last) := samples cfg (List.range' s.i numOut) s
    some (results, { last with i := s.i + numOut })
  else none

end RangeInterpolator

inductive Call (K : Type) where
  | setStartTime (rangeSgp4 : K → K)
  | computeDelta (numOut : Nat)

/-- The number of samples that a call computes. -/
def Call.numOut {K : Type} : Call K → Nat
  | .setStartTime _ => 0
  | .computeDelta numOut => numOut

/-- The interpolator in a run, with the values since the last start call. -/
structure Session (K : Type) where
  interpolator : RangeInterpolator K
  values : List K

variable {K : Type} [Field K] [LinearOrder K]

def Session.construct (s : RangeInterpolator K) : Session K where
  interpolator := s.construct
  values := []

def Session.step (cfg : Config K) (s : Session K) : Call K → Option (Session K)
  | .setStartTime rangeSgp4 =>
    some { interpolator := s.interpolator.setStartTime cfg rangeSgp4, values := [] }
  | .computeDelta numOut =>
    (s.interpolator.computeDelta cfg numOut).map fun (results, next) =>
      { interpolator := next, values := s.values ++ results }

/-- The range at the support points, relative to that at the start time. -/
def supportRange (cfg : Config K) (rangeSgp4 : K → K) (k : Nat) : K :=
  rangeSgp4 ((k : K) * cfg.kTcMin) - rangeSgp4 0

end GrCcsds.Orbits
