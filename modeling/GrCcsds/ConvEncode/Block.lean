import Mathlib.Tactic.Common

/-! # The convolutional encoder block

The encoder of `conv_encode27_aux`, the puncturing patterns and the work
function of `conv_encode27_bb`. Words have the widths of the source; shifts of
promoted operands are truncated to 16 bits as the assignments do.
-/

namespace GrCcsds.ConvEncode

/-- `conv_puncturing27::punct_t` -/
inductive Punct where
  | none
  | ecss23
  | ecss34
  | ecss56
  | ecss78
deriving DecidableEq, Repr

def getPatternLen : Punct → Nat
  | .none => 1
  | .ecss23 => 4
  | .ecss34 => 3
  | .ecss56 => 10
  | .ecss78 => 14

/-- True for the bits that are kept. -/
def getPattern : Punct → List Bool
  | .none => [true]
  | .ecss23 => [true, true, false, true]
  | .ecss34 => [true, true, false]
  | .ecss56 => [true, true, false, true, true, false, false, true, true, false]
  | .ecss78 => [true, true, false, true, false, true, false, true, true, false, false, true,
      true, false]

/-- The constant members of the encoder. -/
structure Config where
  invertC1 : Bool
  invertC2 : Bool
  polyC1 : BitVec 8
  polyC2 : BitVec 8
  punctType : Punct

/-- The constructor arguments of the block. -/
def Config.make (genPolyC1 genPolyC2 : BitVec 8) (puncturing : Punct) : Config where
  invertC1 := genPolyC1 &&& 0x80#8 == 0x80#8
  invertC2 := genPolyC2 &&& 0x80#8 == 0x80#8
  polyC1 := genPolyC1 &&& 0x7F#8
  polyC2 := genPolyC2 &&& 0x7F#8
  punctType := puncturing

/-- The mutable members of the encoder. -/
structure Encoder where
  state : BitVec 16
  punctCount : Nat
deriving DecidableEq, Repr

def Encoder.initial : Encoder := { state := 0, punctCount := 0 }

/-- Selects the input bit at time t. -/
def bitMask : BitVec 16 := 1#16 <<< 7

/-- The loop through the shift registers for one of the two outputs. -/
def outBit (poly : BitVec 8) (state : BitVec 16) : Nat → Bool
  | 0 => false
  | t + 1 =>
    let out := outBit poly state t
    if state &&& (bitMask <<< t) != 0 then out ^^ ((0x40#8 >>> t) &&& poly != 0) else out

/-- One iteration of the loop of `encode` over the bits of a byte. -/
def encodeBit (cfg : Config) (state outputBits : BitVec 16) : BitVec 16 × BitVec 16 :=
  let outC1 := outBit cfg.polyC1 state 7
  let outC2 := outBit cfg.polyC2 state 7
  let bit1 := (BitVec.ofBool (if cfg.invertC1 then outC1 ^^ true else outC1)).setWidth 16
  let bit2 := (BitVec.ofBool (if cfg.invertC2 then outC2 ^^ true else outC2)).setWidth 16
  ((state <<< 1) &&& 0x7FFF#16, (outputBits <<< 2 ||| bit1 <<< 1) ||| bit2)

def encodeLoop (cfg : Config) : Nat → BitVec 16 × BitVec 16 → BitVec 16 × BitVec 16
  | 0, words => words
  | count + 1, words => encodeLoop cfg count (encodeBit cfg words.1 words.2)

/-- `encode` returns the encoded bits and the new state. -/
def encode (cfg : Config) (state : BitVec 16) (inputByte : UInt8) : BitVec 16 × BitVec 16 :=
  let words := encodeLoop cfg 8 (state ||| inputByte.toBitVec.setWidth 16, 0)
  (words.2, words.1 &&& 0x7F00#16)

/-- What the loop of `puncture` changes. -/
structure Punctured where
  outputBits : BitVec 16
  numOutBits : Nat
  punctCount : Nat

/-- One iteration of the loop of `puncture`. -/
def punctureBit (cfg : Config) (inputBits : BitVec 16) (i : Nat) (p : Punctured) : Punctured :=
  let punctCount := (p.punctCount + 1) % getPatternLen cfg.punctType
  if (getPattern cfg.punctType).getD p.punctCount false then
    let shifted := p.outputBits <<< 1
    { outputBits := if inputBits &&& (0x8000#16 >>> i) != 0 then shifted ||| 1 else shifted
      numOutBits := p.numOutBits + 1
      punctCount := punctCount }
  else { p with punctCount := punctCount }

/-- The loop of `puncture` up to an index. -/
def puncture (cfg : Config) (inputBits : BitVec 16) (punctCount : Nat) : Nat → Punctured
  | 0 => { outputBits := 0, numOutBits := 0, punctCount := punctCount }
  | i + 1 => punctureBit cfg inputBits i (puncture cfg inputBits punctCount i)

/-- `encode_punct` returns the bits, their number and the new encoder. -/
def encodePunct (cfg : Config) (e : Encoder) (inputByte : UInt8) : BitVec 16 × Nat × Encoder :=
  let encoded := encode cfg e.state inputByte
  match cfg.punctType with
  | .none => (encoded.1, 16, { e with state := encoded.2 })
  | _ =>
    let p := puncture cfg encoded.1 e.punctCount 16
    (p.outputBits, p.numOutBits, { state := encoded.2, punctCount := p.punctCount })

/-- The mutable members of the block. -/
structure State where
  encoder : Encoder
  buffer : BitVec 16
  bufferCount : Nat
deriving DecidableEq, Repr

def State.initial : State := { encoder := .initial, buffer := 0, bufferCount := 0 }

def toByte (word : BitVec 16) : UInt8 := UInt8.ofBitVec ((word &&& 0x00FF#16).setWidth 8)

/-- The variables of the loop that outputs bytes. -/
structure Emission where
  numBitsOut : Nat
  buffer : BitVec 16
  bufferCount : Nat
  out : List UInt8

/-- One iteration of the inner loop. -/
def emitByte (bitsEnc : BitVec 16) (e : Emission) : Emission :=
  let aligned := bitsEnc <<< (16 - e.numBitsOut)
  let newBits := aligned >>> (e.bufferCount + 8) ||| e.buffer >>> 8
  { numBitsOut := e.numBitsOut - (8 - e.bufferCount)
    buffer := 0
    bufferCount := 0
    out := e.out ++ [toByte newBits] }

/-- The inner loop, given the free space in the output. -/
def emitLoop (bitsEnc : BitVec 16) : (room : Nat) → Emission → Emission
  | 0, e => e
  | room + 1, e =>
    if e.bufferCount + e.numBitsOut ≥ 8 then emitLoop bitsEnc room (emitByte bitsEnc e) else e

/-- One iteration of the outer loop. It returns the state and the output. -/
def encodeByte (cfg : Config) (room : Nat) (s : State) (inputByte : UInt8) :
    State × List UInt8 :=
  let (bitsEnc, numBitsOut, encoder) := encodePunct cfg s.encoder inputByte
  let e := emitLoop bitsEnc room
    { numBitsOut := numBitsOut, buffer := s.buffer, bufferCount := s.bufferCount, out := [] }
  if e.numBitsOut > 0 then
    ({ encoder := encoder
       buffer := bitsEnc <<< (16 - e.numBitsOut)
       bufferCount := e.numBitsOut }, e.out)
  else ({ encoder := encoder, buffer := e.buffer, bufferCount := e.bufferCount }, e.out)

/-- What a call of the work function did. -/
structure Worked where
  state : State
  out : List UInt8
  numIn : Nat

/-- The outer loop over the available input, given the free space in the output. -/
def workLoop (cfg : Config) : List UInt8 → (room : Nat) → State → Worked
  | [], _, s => { state := s, out := [], numIn := 0 }
  | _ :: _, 0, s => { state := s, out := [], numIn := 0 }
  | byte :: rest, room + 1, s =>
    let (s, out) := encodeByte cfg (room + 1) s byte
    let worked := workLoop cfg rest (room + 1 - out.length) s
    { worked with out := out ++ worked.out, numIn := worked.numIn + 1 }

/-- `general_work` -/
def generalWork (cfg : Config) (noutputItems : Nat) (s : State) (input : List UInt8) : Worked :=
  if s.bufferCount ≥ 8 then
    if noutputItems > 0 then
      let worked := workLoop cfg input (noutputItems - 1)
        { s with buffer := s.buffer <<< 8, bufferCount := s.bufferCount - 8 }
      { worked with out := toByte (s.buffer >>> 8) :: worked.out }
    else { state := s, out := [], numIn := 0 }
  else workLoop cfg input noutputItems s

/-- A call of the work function: the requested output and the number of bytes
available at the input. -/
structure Call where
  noutputItems : Nat
  available : Nat

/-- Successive calls on a stream. Each one sees the bytes that the calls before
it have not consumed. -/
def runCalls (cfg : Config) : List Call → State → List UInt8 → Worked
  | [], s, _ => { state := s, out := [], numIn := 0 }
  | call :: rest, s, stream =>
    let first := generalWork cfg call.noutputItems s (stream.take call.available)
    let later := runCalls cfg rest first.state (stream.drop first.numIn)
    { state := later.state, out := first.out ++ later.out, numIn := first.numIn + later.numIn }

end GrCcsds.ConvEncode
