import GrCcsds.Converters.Agreement
import GrCcsds.Foundation.Pipeline
import GrCcsds.MessageChain.AddAsm
import GrCcsds.Randomiser.Agreement
import GrCcsds.ReedSolomon.Coded

/-! # The message handlers as components

The handlers of `rs_encode`, `randomiser`, `add_asm`, `soft_to_hard_message` and
`rs_decode`, each with the messages that it is meant for. A handler that returns
publishes one message with the same header.
-/

namespace GrCcsds.MessageChain

open Utils Messages
open Foundation Foundation.Bits Foundation.Pipeline CountingLoop
open Softbits (hardDecision)

variable {Other Float : Type}

def blobMessage (header : Header Other) (bytes : List UInt8) : Message Other Float :=
  .pair (some header) (.blob bytes)

/-- A frame with its header. -/
abbrev Frame (Other : Type) := Header Other × List UInt8

section ReedSolomon

variable [DecidableEq Other] (unsigned : Other → Option UInt64)

/-- The look-up of the frame number, with the conversion of the values that are not modelled. -/
def frameNumber (header : Header Other) : ReedSolomon.FrameNumber :=
  match header.lookup (.symbol "frame_number") with
  | none => .missing
  | some (.uint64 n) => .unsigned (UInt64.ofNat n)
  | some (.symbol _) => .wrongType
  | some (.other value) =>
    match unsigned value with
    | some n => .unsigned n
    | none => .wrongType

def classify : Message Other Float → ReedSolomon.Message (Header Other)
  | .eof => .eof
  | .notPair => .notPair
  | .pair none _ => .headerNotDict
  | .pair (some header) data =>
    match data.blobData with
    | some bytes => .frame ⟨frameNumber unsigned header, header⟩ bytes
    | none => .dataNotBlob ⟨frameNumber unsigned header, header⟩

omit [DecidableEq Other] in
def published : ReedSolomon.Output (Header Other) → Message Other Float
  | .eof => .eof
  | .frame header bytes => blobMessage header.metadata bytes

end ReedSolomon

/-- One message with the header and new bytes. -/
def onBlob (f : List UInt8 → List UInt8) : Message Other Float → List (Message Other Float)
  | .pair (some header) (.blob bytes) => [blobMessage header (f bytes)]
  | _ => []

/-- Messages with some number of bytes. -/
def HasBytes (length : Nat) (msg : Message Other Float) : Prop :=
  ∃ header bytes, msg = blobMessage header bytes ∧ bytes.length = length

section Transmit

variable [DecidableEq Other] (unsigned : Other → Option UInt64) (fec : ReedSolomon.Fec)
  {depth : Nat} (hdepth : 0 < depth) (hsize : 255 * depth * depth < size32)

include hdepth hsize

theorem encode_frame (buffers : ReedSolomon.EncodeBuffers) {msg : Message Other Float}
    (hmsg : HasBytes (223 * depth) msg) : ∃ outs next,
      ReedSolomon.encodeProcessFrame fec depth buffers (classify unsigned msg) = (outs, next) ∧
      outs.map published = onBlob (ReedSolomon.encoded fec depth) msg := by
  obtain ⟨header, bytes, rfl, hbytes⟩ := hmsg
  obtain ⟨next, hprocess⟩ : ∃ next,
      ReedSolomon.encodeProcessFrame fec depth buffers
        (.frame ⟨frameNumber unsigned header, header⟩ bytes) = _ :=
    ReedSolomon.encodeProcessFrame_frame hdepth hsize hbytes buffers _
  exact ⟨_, next, hprocess, rfl⟩

/-- `rs_encode` with its buffers. -/
def rsEncode (buffers : ReedSolomon.EncodeBuffers) : Component (Message Other Float) where
  State := ReedSolomon.EncodeBuffers
  initial := buffers
  Handles s msg next out := ∃ outs,
    ReedSolomon.encodeProcessFrame fec depth s (classify unsigned msg) = (outs, next) ∧
      out = outs.map published
  Accepts := HasBytes (223 * depth)
  Inv _ := True
  output := onBlob (ReedSolomon.encoded fec depth)
  inv_initial := trivial
  returns := by
    intro s msg _ hmsg
    obtain ⟨outs, next, hprocess, hout⟩ := encode_frame unsigned fec hdepth hsize s hmsg
    exact ⟨next, outs, hprocess, hout.symm⟩
  handled := by
    rintro s msg next _ - hmsg ⟨outs, hprocess, rfl⟩
    obtain ⟨outs', next', hprocess', hout⟩ := encode_frame unsigned fec hdepth hsize s hmsg
    obtain ⟨rfl, rfl⟩ := Prod.mk.inj (hprocess.symm.trans hprocess')
    exact ⟨hout, trivial⟩

end Transmit

section Randomise

variable (c : Randomiser.Config)

/-- A handler that returns has gone through all bytes. -/
theorem randomise_ok {bytes : List UInt8} {header : Header Other} {iterations : Nat}
    {buffer : Nat → UInt8} {s next : Randomiser.Members} {out : List (Message Other Float)}
    (hprocess : Randomiser.Hard.process c iterations buffer s (blobMessage header bytes) =
      .ok (next, out)) :
    out = [blobMessage header (Randomiser.Hard.randomised c bytes)] := by
  obtain ⟨w, hloop, hresult⟩ := Converters.except_map_ok hprocess
  have hshort : bytes.length < size32 := bound_lt_of_loop_ok (by decide) hloop
  obtain ⟨stop, hend, hcovers⟩ := loop_ok
    (fun _ _ _ hi hcovers hbody => Randomiser.Hard.covers_of_body_ok hshort hi hcovers hbody)
    (Randomiser.covers_start c 8 _ _) hloop
  have hout := congrArg Prod.snd hresult
  dsimp only at hout
  rw [hcovers.map_range Randomiser.Hard.length_randomised hend] at hout
  exact hout.symm

/-- `randomiser`, whatever its output arrays contain before. -/
def randomiser : Component (Message Other Float) where
  State := Randomiser.Members
  initial := c.initial
  Handles s msg next out := ∃ iterations buffer,
    Randomiser.Hard.process c iterations buffer s msg = .ok (next, out)
  Accepts msg := ∃ length < size32, HasBytes length msg
  Inv _ := True
  output := onBlob (Randomiser.Hard.randomised c)
  inv_initial := trivial
  returns := by
    rintro s msg - ⟨length, hlength, header, bytes, rfl, rfl⟩
    obtain ⟨iterations, hreturns⟩ :=
      (Randomiser.Hard.publishes_iff c s header bytes _).mpr ⟨hlength, rfl⟩
    obtain ⟨next, hprocess⟩ := hreturns fun _ => 0
    exact ⟨next, iterations, _, hprocess⟩
  handled := by
    rintro s msg next out - ⟨length, hlength, header, bytes, rfl, rfl⟩
      ⟨iterations, buffer, hprocess⟩
    exact ⟨randomise_ok c hprocess, trivial⟩

end Randomise

section Asm

variable {c : AddAsm.Config}

/-- A string of whole bytes, with an output length that can be counted. -/
structure AddAsm.Config.Valid (c : AddAsm.Config) : Prop where
  asm : c.asmBytes.length = c.asmLen
  outLen : c.asmLen + c.frameLen < size32

theorem processFrame_addAsm (hvalid : c.Valid) (stop : Bool) {msg : Message Other Float}
    (hmsg : HasBytes c.frameLen msg) :
    AddAsm.processFrame ({ asm := Uninitialised.Buffer.filled c.asmBytes, stop } : AddAsm.Block c)
        msg =
      .ok ({ asm := Uninitialised.Buffer.filled c.asmBytes, stop },
        onBlob (c.asmBytes ++ ·) msg) := by
  obtain ⟨header, bytes, rfl, hbytes⟩ := hmsg
  simp only [AddAsm.processFrame, blobMessage, Data.blobData,
    AddAsm.addAsm_ok stop hvalid.asm hvalid.outLen hbytes.ge]
  rw [← hbytes, List.take_length]
  rfl

/-- `add_asm` behind its constructor. -/
def addAsm (hvalid : c.Valid) : Component (Message Other Float) where
  State := AddAsm.Block c
  initial := { asm := Uninitialised.Buffer.filled c.asmBytes, stop := false }
  Handles s msg next out := AddAsm.processFrame s msg = .ok (next, out)
  Accepts := HasBytes c.frameLen
  Inv s := s.asm = Uninitialised.Buffer.filled c.asmBytes
  output := onBlob (c.asmBytes ++ ·)
  inv_initial := rfl
  returns := by
    rintro ⟨asm, stop⟩ msg rfl hmsg
    exact ⟨_, processFrame_addAsm hvalid stop hmsg⟩
  handled := by
    rintro ⟨asm, stop⟩ msg next out rfl hmsg hprocess
    obtain ⟨rfl, rfl⟩ :=
      Prod.mk.inj (Except.ok.inj ((processFrame_addAsm hvalid stop hmsg).symm.trans hprocess))
    exact ⟨rfl, rfl⟩

end Asm

section Receive

variable {R : Type} [Arithmetic R]

def onSoft : Message Other R → List (Message Other R)
  | .pair (some header) (.f32vector values) =>
    [blobMessage header (toBytes (values.map hardDecision))]
  | _ => []

/-- `soft_to_hard_message` with its member `d_stopped`. -/
def softToHard : Component (Message Other R) where
  State := Bool
  initial := false
  Handles s msg next out := Converters.SoftToHard.processMessage s msg = (next, out)
  Accepts msg := ∃ header values, msg = Converters.softMessage header values ∧ 8 ∣ values.length
  Inv s := s = false
  output := onSoft
  inv_initial := rfl
  returns := by
    rintro s msg rfl ⟨header, values, rfl, hbytes⟩
    exact ⟨_, Converters.SoftToHard.processMessage_eq hbytes⟩
  handled := by
    rintro s msg next out rfl ⟨header, values, rfl, hbytes⟩ hprocess
    rw [Converters.SoftToHard.processMessage_eq hbytes] at hprocess
    obtain ⟨rfl, rfl⟩ := Prod.mk.inj hprocess
    exact ⟨rfl, rfl⟩

variable [DecidableEq Other] (unsigned : Other → Option UInt64) (fec : ReedSolomon.Fec)
  {depth : Nat}

/-- A block with at most sixteen wrong bytes in each codeword of a frame. -/
structure Decodable (fec : ReedSolomon.Fec) (depth : Nat) (unsigned : Other → Option UInt64)
    (header : Header Other) (received frame : List UInt8) : Prop where
  frameNumber : frameNumber unsigned header ≠ .wrongType
  length_received : received.length = 255 * depth
  length_frame : frame.length = 223 * depth
  few : ∀ row < depth, (ReedSolomon.wrongInClass depth (ReedSolomon.encoded fec depth frame)
    received row).card ≤ 16

/-- The decoder publishes the frame of a block, unless one of its codewords is not correctable. -/
def decoded (fec : ReedSolomon.Fec) (depth : Nat) :
    Message Other Float → List (Message Other Float)
  | .pair (some header) (.blob bytes) =>
    (ReedSolomon.decodedFrame fec depth bytes).toList.map (blobMessage header)
  | _ => []

variable {fec} in
theorem decoded_eq (hfec : fec.CorrectsSixteen) (hdepth : 0 < depth) {header : Header Other}
    {received frame : List UInt8}
    (hdecodable : Decodable fec depth unsigned header received frame) :
    decoded fec depth (blobMessage header received : Message Other Float) =
      [blobMessage header frame] := by
  rw [blobMessage, decoded, ReedSolomon.decodedFrame_of_few hdepth hdecodable.length_frame hfec
    hdecodable.few]
  rfl

/-- Blocks with a header that the decoder can convert. -/
def Decodes (depth : Nat) (unsigned : Other → Option UInt64) (msg : Message Other Float) : Prop :=
  ∃ header received, msg = blobMessage header received ∧ received.length = 255 * depth ∧
    frameNumber unsigned header ≠ .wrongType

variable (hdepth : 0 < depth) (hsize : 255 * depth * depth < size32)

include hdepth hsize

theorem decode_frame (buffers : ReedSolomon.DecodeBuffers) {msg : Message Other Float}
    (hmsg : Decodes depth unsigned msg) : ∃ outs next,
      ReedSolomon.decodeProcessFrame fec .berlekamp depth buffers (classify unsigned msg) =
        .ok (outs, next) ∧ outs.map published = decoded fec depth msg := by
  obtain ⟨header, received, rfl, hlength, hnumber⟩ := hmsg
  obtain ⟨next, hprocess⟩ : ∃ next, ReedSolomon.decodeProcessFrame fec .berlekamp depth buffers
      (.frame ⟨frameNumber unsigned header, header⟩ received) = .ok (_, next) :=
    ReedSolomon.decodeProcessFrame_eq hdepth hsize hlength buffers hnumber
  refine ⟨_, next, hprocess, ?_⟩
  rw [List.map_map]
  rfl

/-- `rs_decode` with its buffers. -/
def rsDecode (buffers : ReedSolomon.DecodeBuffers) : Component (Message Other Float) where
  State := ReedSolomon.DecodeBuffers
  initial := buffers
  Handles s msg next out := ∃ outs,
    ReedSolomon.decodeProcessFrame fec .berlekamp depth s (classify unsigned msg) =
      .ok (outs, next) ∧ out = outs.map published
  Accepts := Decodes depth unsigned
  Inv _ := True
  output := decoded fec depth
  inv_initial := trivial
  returns := by
    intro s msg _ hmsg
    obtain ⟨outs, next, hprocess, hout⟩ := decode_frame unsigned fec hdepth hsize s hmsg
    exact ⟨next, outs, hprocess, hout.symm⟩
  handled := by
    rintro s msg next _ - hmsg ⟨outs, hprocess, rfl⟩
    obtain ⟨outs', next', hprocess', hout⟩ := decode_frame unsigned fec hdepth hsize s hmsg
    obtain ⟨rfl, rfl⟩ := Prod.mk.inj (Except.ok.inj (hprocess.symm.trans hprocess'))
    exact ⟨hout, trivial⟩

end Receive

end GrCcsds.MessageChain
