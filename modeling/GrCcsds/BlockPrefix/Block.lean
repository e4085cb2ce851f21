import GrCcsds.Foundation.Transition
import GrCcsds.FrameSync.HexDecoder
import GrCcsds.Utils

/-! # Putting a prefix in front of blocks

`block_prefix_bb_impl` with the loop of `general_work`. A failed assertion and a
copy that would leave its source are `none`. The buffers of a call are lists:
the available input and the output written so far.
-/

namespace GrCcsds.BlockPrefix

open Utils
open FrameSync (Failure decodeHex)

/-- The constants that the constructor sets. -/
structure Config where
  /-- `d_PREFIX`, the decoded `asm_hex`. -/
  prefixBytes : List UInt8
  blockLen : Nat

namespace Config

def prefixLen (c : Config) : Nat := c.prefixBytes.length

def outputBlockLen (c : Config) : Nat := c.prefixLen + c.blockLen

end Config

/-- The constructor. -/
def make (asmHex : String) (blockLen : Nat) : Except Failure Config :=
  (decodeHex asmHex).map fun prefixBytes => { prefixBytes, blockLen }

/-- Copy `count` bytes from an offset of a source. -/
def memcpy (source : List UInt8) (offset count : Nat) : Option (List UInt8) :=
  if offset + count ≤ source.length then some ((source.drop offset).take count) else none

/-- The variables of `general_work`. The number of bytes written is `num_out_total`. -/
structure Work where
  blockCounter : Nat
  numInTotal : Nat
  out : List UInt8

/-- The bytes that an iteration produces and the number of bytes that it consumes. -/
def produce (c : Config) (input : List UInt8) (numOutAvailable : Nat) (w : Work) :
    Option (List UInt8 × Nat) :=
  if w.blockCounter < c.prefixLen then
    let toCopy := pickSmaller (c.prefixLen - w.blockCounter) numOutAvailable
    (memcpy c.prefixBytes w.blockCounter toCopy).map fun copied => (copied, 0)
  else if w.blockCounter ≤ c.outputBlockLen then
    let numInAvailable := input.length - w.numInTotal
    let numOutPossible := pickSmaller (c.outputBlockLen - w.blockCounter) numOutAvailable
    let toCopy := pickSmaller numOutPossible numInAvailable
    (memcpy input w.numInTotal toCopy).map fun copied => (copied, toCopy)
  else none

/-- One iteration of the loop, with the number of bytes that it produced. -/
def iteration (c : Config) (input : List UInt8) (numOutAvailableTotal : Nat) (w : Work) :
    Option (Work × Nat) :=
  if w.numInTotal ≤ input.length ∧ w.out.length ≤ numOutAvailableTotal then
    (produce c input (numOutAvailableTotal - w.out.length) w).bind fun (copied, numConsumed) =>
      let out := w.out ++ copied
      let blockCounter := w.blockCounter + copied.length
      if blockCounter ≤ c.outputBlockLen ∧ 0 < out.length ∧ out.length ≤ numOutAvailableTotal then
        some ({ blockCounter := if blockCounter = c.prefixLen + c.blockLen then 0 else blockCounter
                numInTotal := w.numInTotal + numConsumed
                out := out }, copied.length)
      else none
  else none

/-- The loop, which ends when the output is full or nothing was produced. It is
`none` as well when it would need more iterations than given. -/
def workLoop (c : Config) (input : List UInt8) (numOutAvailableTotal : Nat) :
    Nat → Work → Option Work
  | 0, w => if w.out.length < numOutAvailableTotal then none else some w
  | iterations + 1, w =>
    if w.out.length < numOutAvailableTotal then
      (iteration c input numOutAvailableTotal w).bind fun (next, numProduced) =>
        if numProduced = 0 then some next
        else workLoop c input numOutAvailableTotal iterations next
    else some w

/-- The counter, the consumed bytes and the output after a call. Every iteration
but the last produces a byte. -/
def generalWork (c : Config) (blockCounter noutputItems : Nat) (input : List UInt8) :
    Option Work :=
  if 0 < noutputItems then
    workLoop c input noutputItems noutputItems { blockCounter, numInTotal := 0, out := [] }
  else none

/-- The block in the flow graph: its counter, all its output and the number of
bytes it has consumed. -/
structure Session where
  blockCounter : Nat
  out : List UInt8
  consumed : Nat

def Session.initial : Session where
  blockCounter := 0
  out := []
  consumed := 0

/-- A call of `general_work` by the scheduler. -/
structure Call where
  noutputItems : Nat
  ninputItems : Nat

/-- The items of a stream that a call sees. -/
def available (input : Nat → UInt8) (consumed ninputItems : Nat) : List UInt8 :=
  (List.range ninputItems).map fun i => input (consumed + i)

/-- One call of `general_work`. -/
def Session.step (c : Config) (input : Nat → UInt8) (s : Session) (call : Call) :
    Option Session :=
  (generalWork c s.blockCounter call.noutputItems
    (available input s.consumed call.ninputItems)).map fun w =>
      { blockCounter := w.blockCounter
        out := s.out ++ w.out
        consumed := s.consumed + w.numInTotal }

/-- The calls that the scheduler makes: space for at least one byte, and at
least one byte of input when the next byte is one of the data part. -/
structure Session.Permitted (c : Config) (s : Session) (call : Call) : Prop where
  noutputItems_pos : 0 < call.noutputItems
  ninputItems_pos : c.prefixLen ≤ s.blockCounter → 0 < call.ninputItems

instance (c : Config) (s : Session) (call : Call) : Decidable (s.Permitted c call) :=
  decidable_of_iff
    (0 < call.noutputItems ∧ (c.prefixLen ≤ s.blockCounter → 0 < call.ninputItems))
    ⟨fun h => ⟨h.1, h.2⟩, fun h => ⟨h.noutputItems_pos, h.ninputItems_pos⟩⟩

end GrCcsds.BlockPrefix
