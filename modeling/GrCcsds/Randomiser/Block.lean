import GrCcsds.Foundation.CountingLoop
import GrCcsds.Foundation.FeedbackRegister
import GrCcsds.Messages.Source
import GrCcsds.Softbits

/-! # Randomisers

`randomiser_impl` and `randomiser_softbits_impl`. They have the same shift
register and the same message handler; one combines bytes with the output of the
register, the other one changes the signs of soft bits. The loops count up to a
`size_t` with an `unsigned int`. Printed diagnostics are left out.
-/

namespace GrCcsds.Randomiser

open Utils Messages
open Foundation CountingLoop

/-- The constants of a block. -/
structure Config where
  poly : BitVec 8
  seed : BitVec 8

/-- The members of a block. -/
structure Members where
  state : BitVec 8
  stop : Bool
deriving DecidableEq, Repr

def Config.initial (c : Config) : Members where
  state := c.seed
  stop := false

/-- Why a handler has not returned. -/
inductive Fault where
  /-- The loop goes on. -/
  | running
  /-- An array is accessed at an index that it does not have. -/
  | outside (index : Nat)
deriving DecidableEq, Repr

/-- The bits that the register takes in, summed up at the lowest position. -/
def inputBit (poly state : BitVec 8) : BitVec 8 :=
  (List.range 8).foldl (fun inputBit j => inputBit ^^^ ((state &&& poly) >>> j) &&& 1#8) 0#8

/-- One iteration of `get_next_byte` on its output and the state. -/
def nextBit (poly : BitVec 8) : BitVec 8 × BitVec 8 → BitVec 8 × BitVec 8
  | (out, state) => (out <<< 1 ||| (state >>> 7) &&& 1#8, state <<< 1 ||| inputBit poly state)

/-- `get_next_byte` returns the byte and the next state. -/
def getNextByte (poly state : BitVec 8) : BitVec 8 × BitVec 8 :=
  (List.range 8).foldl (fun p _ => nextBit poly p) (0#8, state)

/-- The state and the output array, which `new` has not initialised. -/
abbrev Work (α : Type) := BitVec 8 × (Nat → α)

/-- Process one message, given the kind of data and the loop over it. The messages that are
published. -/
def processFrame {Other Float α : Type} (vector : Data Float → Option (List α))
    (pack : List α → Data Float) (loop : List α → BitVec 8 → Except Fault (Work α)) (c : Config)
    (s : Members) : Message Other Float → Except Fault (Members × List (Message Other Float))
  | .eof => .ok ({ s with stop := true }, [.eof])
  | .pair (some header) data =>
    match vector data with
    | some dataIn =>
      -- `reset` sets the state to the seed
      (loop dataIn c.seed).map fun (state, dataOut) =>
        ({ s with state := state },
          [.pair (some header) (pack ((List.range dataIn.length).map dataOut))])
    | none => .ok (s, [])
  | _ => .ok (s, [])

namespace Hard

/-- An iteration of `randomiser_impl`. The counter is below the length. -/
def body (c : Config) (dataIn : List UInt8) (i : Nat) : Work UInt8 → Except Fault (Work UInt8)
  | (state, dataOut) =>
    let (byte, state) := getNextByte c.poly state
    match dataIn[i]? with
    | some x => .ok (state, Function.update dataOut i (x ^^^ UInt8.ofBitVec byte))
    | none => .error (.outside i)

def workLoop (c : Config) (iterations : Nat) (buffer : Nat → UInt8) (dataIn : List UInt8)
    (state : BitVec 8) : Except Fault (Work UInt8) :=
  loop size32 1 dataIn.length .running (body c dataIn) iterations 0 (state, buffer)

/-- `process_frame` of `randomiser`. -/
def process {Other Float : Type} (c : Config) (iterations : Nat) (buffer : Nat → UInt8) :
    Members → Message Other Float → Except Fault (Members × List (Message Other Float)) :=
  processFrame Data.blobData Data.blob (workLoop c iterations buffer) c

end Hard

namespace Soft

variable {R : Type} [Arithmetic R]

def prnBit (prnByte : BitVec 8) (j : Nat) : R :=
  if (prnByte >>> (7 - j)) &&& 1#8 != 0#8 then -1 else 1

/-- An iteration of the inner loop. It accesses both arrays at the same index. -/
def flip (dataIn : List R) (prnByte : BitVec 8) (i : Nat) (dataOut : Nat → R) (j : Nat) :
    Except Fault (Nat → R) :=
  let index := (i + j) % size32
  match dataIn[index]? with
  | some x => .ok (Function.update dataOut index (x * prnBit prnByte j))
  | none => .error (.outside index)

/-- An iteration of `randomiser_softbits_impl`. -/
def body (c : Config) (dataIn : List R) (i : Nat) : Work R → Except Fault (Work R)
  | (state, dataOut) =>
    let (prnByte, state) := getNextByte c.poly state
    ((List.range 8).foldlM (flip dataIn prnByte i) dataOut).map fun dataOut => (state, dataOut)

def workLoop (c : Config) (iterations : Nat) (buffer : Nat → R) (dataIn : List R)
    (state : BitVec 8) : Except Fault (Work R) :=
  loop size32 8 dataIn.length .running (body c dataIn) iterations 0 (state, buffer)

/-- `process_frame` of `randomiser_softbits`. -/
def process {Other : Type} (c : Config) (iterations : Nat) (buffer : Nat → R) :
    Members → Message Other R → Except Fault (Members × List (Message Other R)) :=
  processFrame Data.f32vectorData Data.f32vector (workLoop c iterations buffer) c

end Soft

end GrCcsds.Randomiser
