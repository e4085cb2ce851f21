import GrCcsds.Utils
import Mathlib.Algebra.Ring.Int.Defs

/-! # Configuration of the frame synchronisation

The lengths of a `frame_sync_config` and a `frame_generation_config`, and the
functions outside the block that it calls.
-/

namespace GrCcsds.FrameSync

open Utils

/-- The configuration of the block, in symbols. -/
structure Config where
  asmLen : Nat
  asmLen_pos : 0 < asmLen
  payloadLen : Nat
  head : Int
  tail : Int
  framesBefore : Nat
  framesAfter : Nat

/-- Lengthen or shorten an unsigned 64-bit length. -/
def extendLen (outputLen : Nat) (len : Int) : Nat :=
  if len < 0 then minusWrap outputLen (-len).toNat
  else if len > 0 then (outputLen + len.toNat) % size64
  else outputLen

def computeOutputLen (payloadLen : Nat) (headLen tailLen : Int) : Nat :=
  extendLen (extendLen payloadLen headLen) tailLen

namespace Config

variable (cfg : Config)

def blockLen : Nat := cfg.asmLen + cfg.payloadLen

def outputLen : Nat := computeOutputLen cfg.payloadLen cfg.head cfg.tail

/-- The number of symbols before the end of the ASM that a frame starts with. -/
def numHead : Nat := if cfg.head > 0 then cfg.head.toNat else 0

def overlapLen : Nat := cfg.asmLen - 1

def historyLen : Nat := cfg.framesBefore * cfg.blockLen + cfg.numHead

def bufferLen : Nat := cfg.historyLen + cfg.blockLen + cfg.overlapLen

theorem blockLen_pos : 0 < cfg.blockLen := Nat.add_pos_left cfg.asmLen_pos _

theorem numHead_eq : (cfg.numHead : Int) = max cfg.head 0 := by
  unfold numHead
  split <;> omega

end Config

/-- The arguments of an `snr_interpolation`. -/
structure SnrInterpolation (Snr : Type) where
  first : Snr
  last : Snr
  offsetStart : Nat
  blockLength : Nat
deriving DecidableEq, Repr

/-- A value in the header dictionary of a message. -/
inductive Value (Float : Type) where
  | uint64 (n : Nat)
  | long (i : Int)
  | float (x : Float)
  | bool (b : Bool)
  | nil
deriving DecidableEq, Repr

/-- A dictionary of pmt values. -/
def Dict (Float : Type) : Type := String → Option (Value Float)

namespace Dict

variable {Float : Type}

def empty : Dict Float := fun _ => none

def add (dict : Dict Float) (key : String) (value : Value Float) : Dict Float :=
  fun k => if k = key then some value else dict k

/-- `dict_update`: the entries of the second dictionary replace those of the first. -/
def update (dict other : Dict Float) : Dict Float := fun k => (other k).or (dict k)

@[simp] theorem add_self (dict : Dict Float) (key : String) (value : Value Float) :
    dict.add key value key = some value := if_pos rfl

theorem add_of_ne (dict : Dict Float) {key other : String} (value : Value Float)
    (hne : other ≠ key) : dict.add key value other = dict other := if_neg hne

theorem update_of_none (dict : Dict Float) {other : Dict Float} {key : String}
    (hnone : other key = none) : dict.update other key = dict key := by
  simp [update, hnone]

end Dict

/-- The types of samples, floating point values, SNRs and estimator states, the
constellation and the numerical functions that the block calls. -/
structure Platform where
  Sample : Type
  Float : Type
  Snr : Type
  Estimator : Type
  bitsPerSymbol : Nat
  zero : Sample
  mul : Sample → Sample → Sample
  conj : Sample → Sample
  /-- A sample divided by its magnitude. -/
  normalise : Sample → Sample
  /-- `volk_32fc_x2_dot_prod_32fc` -/
  dotProduct : List Sample → List Sample → Sample
  /-- The conjugated ASM symbols. -/
  asmConj : Nat → Sample
  zeroFloat : Float
  lowest : Float
  addFloat : Float → Float → Float
  invalidSnr : Snr
  initialEstimator : Estimator
  updateEstimator : Estimator → List Sample → Estimator
  getSnr : Estimator → Snr
  /-- The energy correction of symbol `i` of a chunk. -/
  energyCorrection : SnrInterpolation Snr → (i : Nat) → Sample → Float
  getAmbiguitySymbol : Nat → Sample
  /-- Soft decisions of a symbol without ambiguity. Their look-up table is left out. -/
  softDecisionMaker : Sample → Fin bitsPerSymbol → Float
  /-- Score and correlation in percent, from the corrected correlation and the
  accumulated energy correction. -/
  scores : Sample → Float → Float × Float
  esStart : SnrInterpolation Snr → Float
  esSlope : SnrInterpolation Snr → Float
  n0Start : SnrInterpolation Snr → Float
  n0Slope : SnrInterpolation Snr → Float
  snrDbStart : SnrInterpolation Snr → Float
  /-- The dictionary of the tags at the first symbol. -/
  extraTags : Dict Float

/-- Real samples as integers, with two opposite ambiguities and one soft bit a symbol. -/
@[reducible] def realPlatform : Platform where
  Sample := Int
  Float := Int
  Snr := Unit
  Estimator := Unit
  bitsPerSymbol := 1
  zero := 0
  mul := fun x y => x * y
  conj := fun x => x
  normalise := fun x => x.sign
  dotProduct := fun xs ys => (List.zipWith (fun x y => x * y) xs ys).sum
  asmConj := fun _ => 1
  zeroFloat := 0
  lowest := -1
  addFloat := fun x y => x + y
  invalidSnr := ()
  initialEstimator := ()
  updateEstimator := fun _ _ => ()
  getSnr := fun _ => ()
  energyCorrection := fun _ _ x => x.natAbs
  getAmbiguitySymbol := fun ambiguity => if ambiguity = 0 then 1 else -1
  softDecisionMaker := fun x _ => x
  scores := fun x y => (x - y, x)
  esStart := fun _ => 0
  esSlope := fun _ => 0
  n0Start := fun _ => 0
  n0Slope := fun _ => 0
  snrDbStart := fun _ => 0
  extraTags := .empty

/-- An ASM of two symbols and a frame of one. -/
def shortConfig : Config where
  asmLen := 2
  asmLen_pos := Nat.two_pos
  payloadLen := 1
  head := 0
  tail := 0
  framesBefore := 0
  framesAfter := 0

/-- The same with the symbols of the ASM as part of the frame. -/
def headConfig : Config := { shortConfig with head := 2 }

end GrCcsds.FrameSync
