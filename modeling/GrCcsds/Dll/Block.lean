import GrCcsds.Foundation.Fractional
import GrCcsds.Foundation.Transition
import GrCcsds.GrComplex
import GrCcsds.Messages.Source

/-! # The delay locked loop

`dll_cc_impl` in exact arithmetic. A step of the machine is the begin of a call
of `general_work` or the part of its loop up to the next update of the basepoint
index and the fractional index. The first symbol pair follows the same path with
the flag `d_init` not yet set. Debug output is left out.
-/

namespace GrCcsds.Dll

open Utils Foundation.Fractional
open Messages (Tag)

/-- The constants of the block. -/
structure Config (K : Type) where
  osf : Nat
  gamma : K

variable {K Other : Type} [Field K]

def Config.osfHalf (cfg : Config K) : K := (cfg.osf : K) / ((2 : Nat) : K)

/-- Gardner timing error of two symbols and the sample between them. -/
def gardner (previous intermediate current : GrComplex K) : K :=
  ((previous - current) * star intermediate).re

/-- The cubic interpolant between the second and the third value. -/
def interpolateValue (y : Nat → K) (mu : K) : K :=
  let tmp := y 0 - y 1
  let muSquared := mu * mu
  let a := y 3 - y 2 - tmp
  let b := tmp - a
  let c := y 2 - y 0
  a * muSquared * mu + b * muSquared + c * mu + y 1

def interpolateCvalue (y : Nat → GrComplex K) (mu : K) : GrComplex K :=
  ⟨interpolateValue (fun i => (y i).re) mu, interpolateValue (fun i => (y i).im) mu⟩

/-- A call of `general_work`: the sizes of its buffers, the memory behind `in` and the tags of
the input stream. -/
structure Call (K Other : Type) [Ring K] where
  noutputItems : Nat
  ninputItems : Nat
  input : Int → GrComplex K
  tags : List (Tag Other)

/-- The mutable members, with the three entries of `d_last_interp`. -/
structure Members (K : Type) [Ring K] where
  init : Bool
  prev : GrComplex K
  intm : GrComplex K
  curr : GrComplex K
  tauHat : K
  gammaEps : K
  l : Int
  mu : K
  tagCount : Nat

/-- Where the block is: between two calls, before an interpolation or before the update with
the timing error. A call carries the number of symbols it has output. -/
inductive Point (K Other : Type) [Ring K] where
  | idle
  | intermediate (call : Call K Other) (numOut : Nat)
  | current (call : Call K Other) (numOut : Nat)
  | adjust (call : Call K Other) (numOut : Nat)

/-- What the block does with its indices and buffers. -/
inductive Event (K : Type) where
  /-- An interpolation that reads four samples of a buffer of `ninputItems`. -/
  | interpolated (ninputItems : Nat) (first : Int) (mu : K)
  /-- An update of the indices to a position relative to the basepoint. -/
  | updated (position : K) (int : Int) (frac : K)
  | returned (noutputItems ninputItems produced : Nat) (consumed : Int)
deriving DecidableEq

/-- The block in a run. The log only records the past. -/
structure Machine (K Other : Type) [Ring K] where
  point : Point K Other
  members : Members K
  out : List (GrComplex K)
  tagsOut : List (Tag Other)
  log : List (Event K)

inductive Label (K Other : Type) [Ring K] where
  | work (call : Call K Other)
  | proceed

/-- The tags of the items that are consumed, at the rescaled offsets. -/
def propagateTags (cfg : Config K) (tags : List (Tag Other)) (tagCount numIn : Nat) :
    List (Tag Other) :=
  (tags.filter fun tag => tagCount ≤ tag.offset ∧ tag.offset < tagCount + numIn).map
    fun tag => { tag with offset := tag.offset / cfg.osf }

variable [LinearOrder K] [FloorRing K]

/-- `fmod(value, 1.0f)` -/
def getFrac (value : K) : K := remainderOne value

def getInt (value : K) : Int := ⌊value⌋

namespace Machine

variable (cfg : Config K) (m : Machine K Other)

/-- `interpolate_cvalue(&in[d_l-1], d_mu)` -/
def interpolate (call : Call K Other) : GrComplex K :=
  interpolateCvalue (fun i => call.input (m.members.l - 1 + i)) m.members.mu

def read (call : Call K Other) : Event K :=
  .interpolated call.ninputItems (m.members.l - 1) m.members.mu

/-- Update `d_l` and `d_mu` to a position. -/
def moveTo (position : K) : Machine K Other :=
  { m with
    members :=
      { m.members with
        l := m.members.l + getInt position
        mu := getFrac position }
    log := m.log ++ [.updated position (getInt position) (getFrac position)] }

/-- The position half a symbol ahead. -/
def halfSymbol : K := m.members.mu + cfg.osfHalf

/-- The timing error of the last three interpolants, scaled by the stepsize. -/
def nextGammaEps : K :=
  let eps := gardner m.members.prev m.members.intm m.members.curr
  if m.members.init then cfg.gamma * eps
  else if eps ≠ 0 then eps * cfg.gamma else eps

/-- The position half a symbol ahead, corrected by the timing error. -/
def adjusted : K := m.members.mu + cfg.osfHalf + m.nextGammaEps cfg

/-- The end of a call. The next one has one sample before its basepoint. -/
def finish (call : Call K Other) (produced : Nat) : Machine K Other :=
  let consumed := m.members.l - 1
  let numIn := minusCapZero (m.members.l % (size32 : Int)).toNat 1
  { m with
    point := .idle
    members := { m.members with l := 1, tagCount := m.members.tagCount + numIn }
    tagsOut := m.tagsOut ++ propagateTags cfg call.tags m.members.tagCount numIn
    log := m.log ++ [.returned call.noutputItems call.ninputItems produced consumed] }

/-- The first symbol is a sample. -/
def firstSymbol (call : Call K Other) : Machine K Other :=
  { m with
    point := .intermediate call 0
    members := { m.members with tauHat := 0, l := 1, mu := 0, prev := call.input 1 } }

def begin (call : Call K Other) : Machine K Other :=
  if call.ninputItems < cfg.osf + 4 then
    { m with log := m.log ++ [.returned call.noutputItems call.ninputItems 0 0] }
  else if m.members.init then { m with point := .intermediate call 0 }
  else (m.firstSymbol call).moveTo ((m.firstSymbol call).halfSymbol cfg)

/-- The intermediate sample. In the loop the last symbol becomes the previous one. -/
def retrieve (call : Call K Other) (numOut : Nat) : Machine K Other :=
  { m with
    point := .current call numOut
    members :=
      { m.members with
        prev := if m.members.init then m.members.curr else m.members.prev
        intm := m.interpolate call }
    log := m.log ++ [m.read call] }

/-- Interpolate the intermediate sample. -/
def intermediate (call : Call K Other) (numOut : Nat) : Machine K Other :=
  (m.retrieve call numOut).moveTo ((m.retrieve call numOut).halfSymbol cfg)

/-- Interpolate the second symbol. -/
def current (call : Call K Other) (numOut : Nat) : Machine K Other :=
  { m with
    point := .adjust call (if m.members.init then numOut + 1 else numOut)
    members := { m.members with curr := m.interpolate call }
    out := if m.members.init then m.out ++ [m.interpolate call] else m.out
    log := m.log ++ [m.read call] }

/-- Update the delay and the indices with the timing error. -/
def adjust (call : Call K Other) (numOut : Nat) : Machine K Other :=
  let eps := m.nextGammaEps cfg
  let next := m.moveTo (m.adjusted cfg)
  if m.members.init then
    let next := { next with
      members := { next.members with gammaEps := eps, tauHat := m.members.tauHat + eps } }
    let missing := next.members.l + getInt (next.halfSymbol cfg) + 3 - call.ninputItems
    if missing > 0 ∨ numOut ≥ call.noutputItems then next.finish cfg call numOut
    else { next with point := .intermediate call numOut }
  else
    let next := { next with
      members :=
        { next.members with
          init := true, gammaEps := eps, tauHat := m.members.tauHat + eps / cfg.osf }
      out := m.out ++ [m.members.prev, m.members.curr] }
    next.finish cfg call 2

def step (label : Label K Other) : Option (Machine K Other) :=
  match m.point, label with
  | .idle, .work call => some (m.begin cfg call)
  | .intermediate call numOut, .proceed => some (m.intermediate cfg call numOut)
  | .current call numOut, .proceed => some (m.current call numOut)
  | .adjust call numOut, .proceed => some (m.adjust cfg call numOut)
  | _, _ => none

/-- The constructed block. The members other than the flag have no value yet. -/
def start (members : Members K) : Machine K Other where
  point := .idle
  members := { members with init := false, tagCount := 0 }
  out := []
  tagsOut := []
  log := []

end Machine

end GrCcsds.Dll
