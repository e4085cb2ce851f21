import GrCcsds.Foundation.Memory
import GrCcsds.ReedSolomon.Interleaving

/-! # The Reed-Solomon encoder and decoder blocks

Message handlers of `rs_encode` and `rs_decode`. The codec functions of libfec
are a parameter. Buffers are allocated once and keep their contents between
messages, so they are part of the state of a block. Printed diagnostics and the
debug files are left out.
-/

namespace GrCcsds.ReedSolomon

open Utils Foundation

/-- The codec functions of libfec, without padding and erasures. A decoder
changes its block in place and returns the number of corrected symbols, or a
negative number. -/
structure Fec where
  encodeRsCcsds : (Fin 223 → UInt8) → Fin 32 → UInt8
  decodeRsCcsds : (Fin 255 → UInt8) → Int × (Fin 255 → UInt8)
  decodeRs8 : (Fin 255 → UInt8) → Int × (Fin 255 → UInt8)

/-- What the header dictionary holds under `frame_number`. -/
inductive FrameNumber where
  | missing
  | unsigned (value : UInt64)
  | wrongType
deriving DecidableEq, Repr

structure Header (Metadata : Type) where
  frameNumber : FrameNumber
  metadata : Metadata
deriving DecidableEq, Repr

/-- A message as the handlers of both blocks classify it. -/
inductive Message (Metadata : Type) where
  | eof
  | notPair
  | headerNotDict
  | dataNotBlob (header : Header Metadata)
  | frame (header : Header Metadata) (blob : List UInt8)
deriving DecidableEq, Repr

/-- A message published on the output port. -/
inductive Output (Metadata : Type) where
  | eof
  | frame (header : Header Metadata) (blob : List UInt8)
deriving DecidableEq, Repr

/-- The exception of the conversion functions of pmt. -/
structure WrongType where
deriving DecidableEq, Repr

def dataLen (depth : Nat) : Nat := 223 * depth % size32

def parityLen (depth : Nat) : Nat := 32 * depth % size32

/-- `d_OUT_LEN` of the encoder and `d_IN_LEN` of the decoder. -/
def blockLen (depth : Nat) : Nat := (dataLen depth + parityLen depth) % size32

/-- The blob that `make_blob` copies out of a buffer. -/
def makeBlob (buffer : Nat → UInt8) (length : Nat) : List UInt8 := (List.range length).map buffer

structure EncodeBuffers where
  data : Nat → UInt8
  parity : Nat → UInt8
  parity2 : Nat → UInt8
  out : Nat → UInt8

/-- The body of the encoder for a blob that is long enough. -/
def encodeFrame (fec : Fec) (depth : Nat) (buffers : EncodeBuffers) (dataIn : Nat → UInt8) :
    EncodeBuffers :=
  let data := Memory.scatter id (fun i => dataIn (interlIndx i depth (dataLen depth)))
    (dataLen depth) buffers.data
  let parity := Memory.writeAll (fun i => i * 32 % size32)
    (fun i => fec.encodeRsCcsds (Memory.read data (i * 223 % size32))) depth buffers.parity
  let parity2 := Memory.scatter (fun i => interlIndx i depth (parityLen depth)) parity
    (parityLen depth) buffers.parity2
  { data := data
    parity := parity
    parity2 := parity2
    out := Memory.copy (dataLen depth) (parityLen depth) parity2
      (Memory.copy 0 (dataLen depth) dataIn buffers.out) }

variable {Metadata : Type}

/-- `rs_encode_impl::process_frame` -/
def encodeProcessFrame (fec : Fec) (depth : Nat) (buffers : EncodeBuffers) :
    Message Metadata → List (Output Metadata) × EncodeBuffers
  | .eof => ([.eof], buffers)
  | .notPair => ([], buffers)
  | .headerNotDict => ([], buffers)
  | .dataNotBlob _ => ([], buffers)
  | .frame header blob =>
    if blob.length % size32 < dataLen depth then ([], buffers)
    else
      let encoded := encodeFrame fec depth buffers fun i => blob.getD i 0
      ([.frame header (makeBlob encoded.out (blockLen depth))], encoded)

structure DecodeBuffers where
  input : Nat → UInt8
  data : Nat → UInt8
  out : Nat → UInt8

inductive Representation where
  | berlekamp
  | conventional
  | invalid
deriving DecidableEq, Repr

/-- The call into libfec. An invalid representation leaves the block alone. -/
def decodeBlock (fec : Fec) (representation : Representation) (block : Fin 255 → UInt8) :
    Int × (Fin 255 → UInt8) :=
  match representation with
  | .berlekamp => fec.decodeRsCcsds block
  | .conventional => fec.decodeRs8 block
  | .invalid => (-1, block)

/-- The decoding loop after `count` iterations. It stops at the first block
that cannot be decoded. -/
def decodeLoop (fec : Fec) (representation : Representation) :
    Nat → DecodeBuffers → Except DecodeBuffers DecodeBuffers
  | 0, buffers => .ok buffers
  | i + 1, buffers =>
    match decodeLoop fec representation i buffers with
    | .error buffers => .error buffers
    | .ok buffers =>
      let offset := i * 255 % size32
      let decoded := decodeBlock fec representation (Memory.read buffers.input offset)
      let input := Memory.write offset decoded.2 buffers.input
      if decoded.1 < 0 then .error { buffers with input := input }
      else
        .ok { buffers with
          input := input
          data := Memory.copy (i * 223 % size32) 223 (fun k => input (offset + k)) buffers.data }

/-- The body of the decoder for a blob that is long enough. -/
def decodeFrame (fec : Fec) (representation : Representation) (depth : Nat)
    (buffers : DecodeBuffers) (dataIn : Nat → UInt8) : Except DecodeBuffers DecodeBuffers :=
  let input := Memory.scatter id (fun i => dataIn (interlIndx i depth (blockLen depth)))
    (blockLen depth) buffers.input
  match decodeLoop fec representation depth { buffers with input := input } with
  | .error buffers => .error buffers
  | .ok buffers =>
    .ok { buffers with
      out := Memory.scatter (fun i => interlIndx i depth (dataLen depth)) buffers.data
        (dataLen depth) buffers.out }

/-- `rs_decode_impl::process_frame` -/
def decodeProcessFrame (fec : Fec) (representation : Representation) (depth : Nat)
    (buffers : DecodeBuffers) :
    Message Metadata → Except WrongType (List (Output Metadata) × DecodeBuffers)
  | .eof => .ok ([.eof], buffers)
  | .notPair => .ok ([], buffers)
  | .headerNotDict => .ok ([], buffers)
  | .dataNotBlob _ => .ok ([], buffers)
  | .frame header blob =>
    if header.frameNumber = .wrongType then .error {}
    else if blob.length % size32 < blockLen depth then .ok ([], buffers)
    else
      match decodeFrame fec representation depth buffers fun i => blob.getD i 0 with
      | .error buffers => .ok ([], buffers)
      | .ok buffers =>
        .ok ([.frame header (makeBlob buffers.out (dataLen depth))], buffers)

end GrCcsds.ReedSolomon
