import GrCcsds.ConvEncode.Block
import GrCcsds.Softbits

/-! # The set-up of the convolutional decoder

What `conv_decode27` computes before it calls the decoder of libfec: the number
of soft bits of a message, the first and the last state of the trellis, the
polynomials and the unpunctured block.
-/

namespace GrCcsds.ConvDecode

open Utils ConvEncode Ambiguity Softbits

/-- `hex2bin` returns zero for other characters. -/
def hex2bin (hex : Char) : UInt8 :=
  if '0' ≤ hex ∧ hex ≤ '9' then UInt8.ofNat (hex.toNat - '0'.toNat)
  else if 'A' ≤ hex ∧ hex ≤ 'F' then UInt8.ofNat (hex.toNat - 'A'.toNat + 10)
  else if 'a' ≤ hex ∧ hex ≤ 'f' then UInt8.ofNat (hex.toNat - 'a'.toNat + 10)
  else 0

/-- The bytes of a string of even length. -/
def hexBytes : List Char → List UInt8
  | first :: second :: rest => (hex2bin first <<< 4 ||| hex2bin second) :: hexBytes rest
  | _ => []

/-- `hexstring_to_binary` writes nothing for a string of odd length. -/
def hexstringToBinary (str : String) : List UInt8 :=
  if str.length % 2 ≠ 0 then [] else hexBytes str.toList

/-- The last six bits of the ASM. -/
def getStartState (asm : String) : Nat :=
  let asmLen := divideCeil asm.length 2
  ((hexstringToBinary asm).getD (asmLen - 1) 0 &&& 0x3F).toNat

/-- The first six bits of the ASM. -/
def getTermState (asm : String) : Nat :=
  ((hexstringToBinary asm).getD 0 0 >>> 2 &&& 0x3F).toNat

/-- The loop of `convert_poly` over the bits of a polynomial. -/
def convertPolyLoop (input : BitVec 8) : Nat → BitVec 8
  | 0 => 0
  | i + 1 => convertPolyLoop input i <<< 1 ||| 0x01#8 &&& (input >>> i)

def convertPoly (input : BitVec 8) : Int :=
  let ret := convertPolyLoop input 7
  if input &&& 0x80#8 != 0 then -(ret.toNat : Int) else ret.toNat

/-- The counters of the loop of `get_num_inputs_req`. -/
def numInputsLoop (puncturingType : Punct) : Nat → Nat × Nat
  | 0 => (0, 0)
  | countOut + 1 =>
    let (countIn, countPattern) := numInputsLoop puncturingType countOut
    (countIn + (if (getPattern puncturingType).getD countPattern false then 1 else 0),
      (countPattern + 1) % getPatternLen puncturingType)

def getNumInputsReq (puncturingType : Punct) (numOut : Nat) : Nat :=
  (numInputsLoop puncturingType numOut).1

variable {R : Type} [Arithmetic R]

/-- The variables of the loop of `unpuncture_and_convert`. -/
structure Unpunctured where
  out : List UInt8
  punctCount : Nat
  inCount : Nat

/-- One iteration of the loop. -/
def unpunctureStep (exp : R → R) (punctType : Punct) (input : List R) (u : Unpunctured) :
    Unpunctured :=
  let action := (getPattern punctType).getD u.punctCount false
  { out := u.out ++
      [if action then mapToUInt8 exp (input.getD u.inCount 0) else mapToUInt8 exp 0]
    punctCount := (u.punctCount + 1) % getPatternLen punctType
    inCount := u.inCount + if action then 1 else 0 }

def unpunctureLoop (exp : R → R) (punctType : Punct) (input : List R) : Nat → Unpunctured
  | 0 => { out := [], punctCount := 0, inCount := 0 }
  | i + 1 => unpunctureStep exp punctType input (unpunctureLoop exp punctType input i)

/-- `unpuncture_and_convert` returns the output and the number of soft bits it has read. -/
def unpunctureAndConvert (exp : R → R) (punctType : Punct) (input : List R) (numOut : Nat) :
    List UInt8 × Nat :=
  match punctType with
  | .none => ((List.range numOut).map fun i => mapToUInt8 exp (input.getD i 0), numOut)
  | _ =>
    let u := unpunctureLoop exp punctType input numOut
    (u.out, u.inCount)

end GrCcsds.ConvDecode
