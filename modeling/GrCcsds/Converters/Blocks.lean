import GrCcsds.Foundation.CountingLoop
import GrCcsds.Messages.Source
import GrCcsds.Softbits

/-! # Converters between soft bits and bytes

`soft_to_hard_message` and `softbits_msg_to_bytes_b` convert messages,
`softbittobit`, `pack_bit_to_bytes` and `byte_to_softbits_bf` convert streams.
Every block assembles or takes apart bytes in its own way. Printed diagnostics
are left out.
-/

namespace GrCcsds.Converters

open Utils Messages Softbits
open Foundation CountingLoop
open Ambiguity (extractBitLeft)

variable {R : Type} [Arithmetic R] {Other : Type}

/-- An element of an array of soft bits. No block reads behind the end. -/
def softbit (values : List R) (index : Nat) : R := values[index]?.getD 0

/-- `hard_decision` as a number. -/
def hardDecisionByte (llrOne : R) : UInt8 := if hardDecision llrOne then 1 else 0

def createFromBit (bit : Bool) (noisePower : R) : R :=
  (2 : Nat) * (if bit then 1 else -1) / noisePower

namespace SoftToHard

/-- The bits of a byte are combined at their positions. The shift is one of `unsigned int`. -/
def byteValue (values : List R) (i : Nat) : UInt8 :=
  (List.range 8).foldl (fun byte j =>
    byte ||| UInt8.ofNat
      ((if hardDecision (softbit values (8 * i + j)) then 1 else 0) <<< (7 - j))) 0

/-- The handler with the member `d_stopped`. The messages that are published. -/
def processMessage (stopped : Bool) (msgIn : Message Other R) : Bool × List (Message Other R) :=
  if stopped then (stopped, [])
  else
    match msgIn with
    | .eof => (true, [.eof])
    | .pair (some header) data =>
      match data.f32vectorData with
      | some values =>
        if values.length % 8 > 0 then (stopped, [])
        else
          (stopped, [.pair (some header)
            (.blob ((List.range (values.length / 8)).map (byteValue values)))])
      | none => (stopped, [])
    | _ => (stopped, [])

end SoftToHard

namespace MsgToBytes

structure Block where
  queue : List UInt8
  stop : Bool
deriving DecidableEq

/-- Why the handler has not returned. -/
inductive Fault where
  | running
deriving DecidableEq, Repr

def initial : Block where
  queue := []
  stop := false

/-- A bit of an output byte. The index is an `unsigned int`. -/
def bit (values : List R) (i j : Nat) : UInt8 :=
  let index := (8 * i + j) % size32
  if index < values.length then hardDecisionByte (softbit values index) else 0

/-- The bits of a byte are shifted in. -/
def byteValue (values : List R) (i : Nat) : UInt8 :=
  (List.range 8).foldl (fun byte j => byte <<< 1 ||| bit values i j) 0

/-- The loop over the output bytes counts with an `unsigned int` up to a `size_t`. -/
def processMessage (iterations : Nat) (b : Block) : Message Other R → Except Fault Block
  | .eof => .ok { b with stop := true }
  | .pair (some _) data =>
    match data.f32vectorData with
    | some values =>
      (loop size32 1 (divideCeil values.length 8) .running
        (fun i queue => .ok (queue ++ [byteValue values i])) iterations 0 b.queue).map
          fun queue => { b with queue }
    | none => .ok b
  | _ => .ok b

/-- The loop of `work` with the items that it outputs. -/
def drain : Nat → List UInt8 → List UInt8 × List UInt8
  | 0, queue => ([], queue)
  | _ + 1, [] => ([], [])
  | count + 1, byte :: rest =>
    let (out, queue) := drain count rest
    (byte :: out, queue)

def work (b : Block) (noutputItems : Nat) : WorkResult UInt8 × Block :=
  if b.stop ∧ b.queue.length = 0 then (.endOfStream, b)
  else
    let (out, queue) := drain noutputItems b.queue
    (.produced out, { b with queue })

/-- Successive calls of `work` and all that they output. -/
def works : List Nat → Block → List UInt8 × Block
  | [], b => ([], b)
  | noutputItems :: rest, b =>
    let (result, next) := work b noutputItems
    let (out, last) := works rest next
    (result.items ++ out, last)

end MsgToBytes

namespace SoftbitToBit

def work (input : Nat → R) (noutputItems : Nat) : List UInt8 :=
  (List.range noutputItems).map fun i => hardDecisionByte (input i)

end SoftbitToBit

namespace PackBits

def combineBits (bit0 bit1 bit2 bit3 bit4 bit5 bit6 bit7 : UInt8) : UInt8 :=
  (bit0 &&& 0x01) <<< 7 ||| (bit1 &&& 0x01) <<< 6 ||| (bit2 &&& 0x01) <<< 5 |||
    (bit3 &&& 0x01) <<< 4 ||| (bit4 &&& 0x01) <<< 3 ||| (bit5 &&& 0x01) <<< 2 |||
    (bit6 &&& 0x01) <<< 1 ||| (bit7 &&& 0x01) <<< 0

def work (input : Nat → UInt8) (noutputItems : Nat) : List UInt8 :=
  (List.range noutputItems).map fun i =>
    let offset := i * 8
    combineBits (input (offset + 0)) (input (offset + 1)) (input (offset + 2))
      (input (offset + 3)) (input (offset + 4)) (input (offset + 5)) (input (offset + 6))
      (input (offset + 7))

end PackBits

namespace ByteToSoftbits

/-- The number of outputs is a multiple of eight. -/
def work (n0 : R) (input : Nat → UInt8) (noutputItems : Nat) : List R :=
  (List.range (noutputItems / 8)).flatMap fun i =>
    (List.range 8).map fun j => createFromBit (extractBitLeft (input i).toNat j) n0

end ByteToSoftbits

/-! ## Streams -/

/-- The soft bits before `softbittobit`, the bits before `pack_bit_to_bytes` and its output. -/
structure Chain (R : Type) where
  softbits : List R
  bits : List UInt8
  bytes : List UInt8

namespace Chain

/-- The calls of `work` of the two blocks. -/
inductive Call where
  | softbitToBit (noutputItems : Nat)
  | packBits (noutputItems : Nat)

def start (softbits : List R) : Chain R where
  softbits := softbits
  bits := []
  bytes := []

/-- A block is only called when the items that it consumes are available. -/
def step (c : Chain R) : Call → Option (Chain R)
  | .softbitToBit noutputItems =>
    if noutputItems ≤ c.softbits.length then
      some { c with
        softbits := c.softbits.drop noutputItems
        bits := c.bits ++ SoftbitToBit.work (softbit c.softbits) noutputItems }
    else none
  | .packBits noutputItems =>
    if 8 * noutputItems ≤ c.bits.length then
      some { c with
        bits := c.bits.drop (8 * noutputItems)
        bytes := c.bytes ++ PackBits.work (fun i => c.bits[i]?.getD 0) noutputItems }
    else none

end Chain

/-- The bytes before `byte_to_softbits_bf` and its output. -/
structure Expansion (R : Type) where
  bytes : List UInt8
  softbits : List R

namespace Expansion

def start (bytes : List UInt8) : Expansion R where
  bytes := bytes
  softbits := []

/-- The number of outputs that is asked for is a multiple of eight. -/
def step (n0 : R) (e : Expansion R) (noutputItems : Nat) : Option (Expansion R) :=
  if noutputItems % 8 = 0 ∧ noutputItems / 8 ≤ e.bytes.length then
    some
      { bytes := e.bytes.drop (noutputItems / 8)
        softbits := e.softbits ++
          ByteToSoftbits.work n0 (fun i => e.bytes[i]?.getD 0) noutputItems }
  else none

end Expansion

end GrCcsds.Converters
