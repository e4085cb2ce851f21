import GrCcsds.Arithmetic
import GrCcsds.ConvDecode.Unpuncture
import GrCcsds.Messages.Source
import Mathlib.Data.Rat.Floor

/-! # The message handler of the decoder

`process_message` of `conv_decode27`. The decoder of libfec is a parameter. The
handler accepts a vector of the expected length, and one of any whole number of
bytes. Printed diagnostics are left out.
-/

namespace GrCcsds.ConvDecode

open Utils ConvEncode Softbits Messages

/-- The members of the block. -/
structure Decoder where
  punctType : Punct
  blockNumBitsIn : Nat
  blockNumBitsInUnpunc : Nat
  blockNumBitsOut : Nat
  startState : Nat
  termState : Nat
deriving DecidableEq, Repr

def Decoder.make (puncturingType : Punct) (blockLen : Nat) (asm : String) : Decoder where
  punctType := puncturingType
  blockNumBitsIn := getNumInputsReq puncturingType (2 * (blockLen + 6) % size32)
  blockNumBitsInUnpunc := 2 * (blockLen + 6) % size32
  blockNumBitsOut := blockLen
  startState := getStartState asm
  termState := getTermState asm

/-- The functions of libfec on a decoder with its polynomials: the bits that the path from the
first to the last state decodes to, as bytes. -/
def Viterbi : Type :=
  (startState : Nat) → (symbols : List UInt8) → (numSteps numBits termState : Nat) → List UInt8

namespace Decoder

variable {R Other : Type} (d : Decoder)

/-- The checks of `process_message`: the header and the soft bits of a message that it
decodes. -/
def receive : Message Other R → Option (Header Other × List R)
  | .pair (some header) (.f32vector values) =>
    if values.length = d.blockNumBitsIn ∨ values.length = divideFloor values.length 8 * 8 then
      if d.blockNumBitsOut % 8 ≠ 0 then none else some (header, values)
    else none
  | _ => none

variable [Arithmetic R] (exp : R → R) (viterbi : Viterbi)

/-- `process_message` returns the message that it publishes. -/
def processMessage : Message Other R → Option (Message Other R)
  | .eof => some .eof
  | msg => (d.receive msg).map fun (header, softbitsIn) =>
    let buffer := (unpunctureAndConvert exp d.punctType softbitsIn d.blockNumBitsInUnpunc).1
    let dataDec := viterbi d.startState buffer (d.blockNumBitsOut + 6) d.blockNumBitsOut
      d.termState
    .pair (some header) (.blob dataDec)

theorem processMessage_pair (header : Option (Header Other)) (data : Data R) :
    (d.processMessage exp viterbi (.pair header data)).isSome =
      (d.receive (.pair header data)).isSome := Option.isSome_map

end Decoder

section Reads

variable {R : Type} [Arithmetic R] (exp : R → R) (punctType : Punct)

/-- The index that an iteration of the loop over the pattern reads. -/
def readsAt (input : List R) (i : Nat) : List Nat :=
  let u := unpunctureLoop exp punctType input i
  if (getPattern punctType).getD u.punctCount false then [u.inCount] else []

/-- The indices of the soft bits that `unpuncture_and_convert` reads. -/
def unpunctureReads (input : List R) (numOut : Nat) : List Nat :=
  match punctType with
  | .none => List.range numOut
  | _ => (List.range numOut).flatMap (readsAt exp punctType input)

theorem flatMap_readsAt (input : List R) (m : Nat) :
    (List.range m).flatMap (readsAt exp punctType input) =
      List.range (unpunctureLoop exp punctType input m).inCount := by
  induction m with
  | zero => rfl
  | succ m ih =>
      rw [List.range_succ, List.flatMap_append, ih, List.flatMap_singleton, readsAt, unpunctureLoop,
        unpunctureStep]
      dsimp only
      split
      next => exact List.range_succ.symm
      next => exact List.append_nil _

/-- The reads are one soft bit after the other, as many as `get_num_inputs_req` returns. -/
theorem unpunctureReads_eq (input : List R) (numOut : Nat) :
    unpunctureReads exp punctType input numOut =
      List.range (getNumInputsReq punctType numOut) := by
  cases punctType with
  | none => rw [getNumInputsReq_none]; rfl
  | _ =>
      rw [getNumInputsReq, numInputsLoop_eq exp _ input]
      exact flatMap_readsAt exp _ input numOut

variable {exp punctType}

theorem unpunctureLoop_congr {input other : List R} {m : Nat}
    (hagree : ∀ i < (unpunctureLoop exp punctType input m).inCount,
      input.getD i 0 = other.getD i 0) :
    unpunctureLoop exp punctType input m = unpunctureLoop exp punctType other m := by
  induction m with
  | zero => rfl
  | succ m ih =>
      rw [unpunctureLoop, unpunctureStep] at hagree
      dsimp only at hagree
      have hbefore := ih fun i hi => hagree i (Nat.lt_add_right _ hi)
      rw [unpunctureLoop, unpunctureLoop, ← hbefore, unpunctureStep, unpunctureStep]
      split at hagree
      next hkeep => simp only [if_pos hkeep, hagree _ (Nat.lt_succ_self _)]
      next hdrop => simp only [if_neg hdrop]

/-- The output depends on the soft bits that are read and no others. -/
theorem unpunctureAndConvert_congr {input other : List R} {numOut : Nat}
    (hagree : ∀ i ∈ unpunctureReads exp punctType input numOut,
      input.getD i 0 = other.getD i 0) :
    unpunctureAndConvert exp punctType input numOut =
      unpunctureAndConvert exp punctType other numOut := by
  have hloop (hwalk : ∀ i ∈ (List.range numOut).flatMap (readsAt exp punctType input),
      input.getD i 0 = other.getD i 0) :
      unpunctureLoop exp punctType input numOut = unpunctureLoop exp punctType other numOut := by
    rw [flatMap_readsAt] at hwalk
    exact unpunctureLoop_congr fun i hi => hwalk i (List.mem_range.mpr hi)
  cases punctType with
  | none =>
      refine Prod.ext (List.map_congr_left ?_) rfl
      intro i hi
      rw [hagree i hi]
  | _ => rw [unpunctureAndConvert, unpunctureAndConvert, hloop hagree] <;> simp

end Reads

namespace Decoder

variable {R Other : Type} [Arithmetic R] (exp : R → R) (viterbi : Viterbi)

/-- What the handler needs of the soft bits that it decodes: the asserted number, and every read
inside. -/
structure Reads (d : Decoder) (values : List R) : Prop where
  enough : d.blockNumBitsIn ≤ values.length
  inside : ∀ i ∈ unpunctureReads exp d.punctType values d.blockNumBitsInUnpunc,
    i < values.length

theorem reads_iff (puncturingType : Punct) (blockLen : Nat) (asm : String) (values : List R) :
    (make puncturingType blockLen asm).Reads exp values ↔
      (make puncturingType blockLen asm).blockNumBitsIn ≤ values.length := by
  refine ⟨Reads.enough, fun henough => ⟨henough, ?_⟩⟩
  intro i hi
  rw [unpunctureReads_eq] at hi
  exact Nat.lt_of_lt_of_le (List.mem_range.mp hi) henough

/-- The handler drops a vector or finds its soft bits inside, unless the vector is too short and
has a whole number of bytes. -/
theorem dropped_or_inside_iff (puncturingType : Punct) {blockLen : Nat}
    (hblock : blockLen % 8 = 0) (asm : String) (header : Header Other) (values : List R) :
    ((make puncturingType blockLen asm).processMessage exp viterbi
        (.pair (some header) (.f32vector values)) = none ∨
      (make puncturingType blockLen asm).Reads exp values) ↔
      ¬ (values.length % 8 = 0 ∧
        values.length < getNumInputsReq puncturingType (2 * (blockLen + 6) % size32)) := by
  have hdropped : (make puncturingType blockLen asm).processMessage exp viterbi
        (.pair (some header) (.f32vector values)) = none ↔
      ¬ (values.length = (make puncturingType blockLen asm).blockNumBitsIn ∨
        values.length = divideFloor values.length 8 * 8) := by
    rw [← Option.not_isSome_iff_eq_none, processMessage_pair]
    simp [receive, make, hblock]
  have hbytes : values.length = divideFloor values.length 8 * 8 ↔ values.length % 8 = 0 := by
    rw [divideFloor]
    omega
  rw [hdropped, hbytes, reads_iff]
  change (¬ (values.length = getNumInputsReq _ _ ∨ _) ∨ getNumInputsReq _ _ ≤ _) ↔ _
  omega

end Decoder

section Exact

open scoped ExactNumbers

/-- Blocks of one byte without puncturing, which need 28 soft bits. -/
def byteDecoder : Decoder := .make .none 8 "1ACFFC1D"

/-- A message of soft bits that say nothing. -/
def softMessage (length : Nat) : Message Unit ℚ :=
  .pair (some []) (.f32vector (List.replicate length 0))

theorem dropped_or_inside_iff_byte :
    byteDecoder.processMessage (fun x => x) (fun _ _ _ _ _ => []) (softMessage 28) = none ∨
      byteDecoder.Reads (fun x => x) (List.replicate 28 (0 : ℚ)) := by
  refine (Decoder.dropped_or_inside_iff _ _ .none (by decide) _ [] _).mpr ?_
  rw [List.length_replicate]
  decide

/-- Eight soft bits are a byte, so they are decoded although 28 are needed. -/
theorem short_vector_decoded :
    ¬ (byteDecoder.processMessage (fun x => x) (fun _ _ _ _ _ => []) (softMessage 8) = none ∨
      byteDecoder.Reads (fun x => x) (List.replicate 8 (0 : ℚ))) := by
  rintro (hnone | hreads)
  · cases hnone
  · have henough := hreads.enough
    rw [List.length_replicate] at henough
    exact absurd henough (by decide)

end Exact

end GrCcsds.ConvDecode
