import GrCcsds.Ambiguity.LoadAsm
import GrCcsds.ConvDecode.Trellis
import GrCcsds.Converters.Agreement
import GrCcsds.Messages.Source

/-! # The block that adds an ASM

`add_asm_impl` puts the bytes of an ASM in front of the first bytes of a blob. It
copies as many bytes as the frame has, however long the blob is. Printed
diagnostics are left out.
-/

namespace GrCcsds.MessageChain.AddAsm

open Utils Messages
open Foundation Foundation.Uninitialised ConvDecode
open Ambiguity (hexstringInto)

structure Config where
  asm : String
  frameLen : Nat

/-- The length of the ASM is an `unsigned int`. -/
def Config.asmLen (c : Config) : Nat := divideFloor c.asm.length 2 % size32

/-- The length of an output message, also an `unsigned int`. -/
def Config.outLen (c : Config) : Nat := (c.asmLen + c.frameLen) % size32

structure Block (c : Config) where
  asm : Buffer UInt8 c.asmLen
  stop : Bool

/-- The constructor. -/
def make (c : Config) : Except Fault (Block c) :=
  (hexstringInto c.asm (Buffer.fresh UInt8 c.asmLen)).map fun asm => { asm, stop := false }

/-- A byte of the data of a message. -/
def readByte (dataIn : List UInt8) (i : Nat) : Except Fault UInt8 :=
  match dataIn[i]? with
  | some byte => .ok byte
  | none => .error (.outside i)

/-- `memcpy` of some bytes to a position. -/
def memcpy {size : Nat} (read : Nat → Except Fault UInt8) (count position : Nat)
    (out : Buffer UInt8 size) : Except Fault (Buffer UInt8 size) :=
  ((List.range count).mapM read).bind fun bytes => out.writeAll bytes position

variable {Other Float : Type}

/-- The data of the output message. -/
def addAsm {c : Config} (b : Block c) (dataIn : List UInt8) : Except Fault (List UInt8) :=
  (memcpy b.asm.read c.asmLen 0 (Buffer.fresh UInt8 c.outLen)).bind fun out =>
    (memcpy (readByte dataIn) c.frameLen c.asmLen out).bind fun out =>
      (List.range c.outLen).mapM out.read

/-- `process_frame` with the messages that it publishes. -/
def processFrame {c : Config} (b : Block c) :
    Message Other Float → Except Fault (Block c × List (Message Other Float))
  | .eof => .ok ({ b with stop := true }, [.eof])
  | .pair (some header) data =>
    match data.blobData with
    | some dataIn =>
      (addAsm b dataIn).map fun dataOut => (b, [.pair (some header) (.blob dataOut)])
    | none => .ok (b, [])
  | _ => .ok (b, [])

section Copies

variable {size : Nat}

theorem mapM_range_ok {read : Nat → Except Fault UInt8} {bytes : List UInt8}
    (hread : ∀ i (hi : i < bytes.length), read i = .ok bytes[i]) :
    (List.range bytes.length).mapM read = .ok bytes := by
  have hall : ∀ i ∈ List.range bytes.length, read i = .ok (bytes.getD i 0) := by
    intro i hi
    have hinside := List.mem_range.mp hi
    simp [hread i hinside, hinside]
  rw [mapM_ok hall]
  congr 1
  apply List.ext_getElem
  · simp
  · intro i _ hi
    simp [hi]

theorem memcpy_filled {read : Nat → Except Fault UInt8} {count position : Nat}
    {bytes written : List UInt8} (hbytes : bytes.length = count)
    (hwritten : written.length = position)
    (hread : ∀ i (hi : i < bytes.length), read i = .ok bytes[i])
    (hinside : position + count ≤ size) :
    memcpy read count position (Buffer.filled written : Buffer UInt8 size) =
      .ok (Buffer.filled (written ++ bytes)) := by
  subst hbytes hwritten
  rw [memcpy, mapM_range_ok hread]
  exact Buffer.writeAll_filled (by rwa [List.length_append])

theorem length_of_mapM_ok {read : Nat → Except Fault UInt8} {indices : List Nat}
    {bytes : List UInt8} (hread : indices.mapM read = .ok bytes) :
    bytes.length = indices.length := by
  induction indices generalizing bytes with
  | nil =>
      cases hread
      rfl
  | cons i rest ih =>
      rw [List.mapM_cons] at hread
      cases hfirst : read i with
      | error fault =>
          rw [hfirst] at hread
          cases hread
      | ok byte =>
          cases hrest : rest.mapM read with
          | error fault =>
              rw [hfirst, hrest] at hread
              cases hread
          | ok others =>
              rw [hfirst, hrest] at hread
              cases hread
              rw [List.length_cons, List.length_cons, ih hrest]

/-- A copy that returns has read every byte and has had a place for it. -/
theorem of_memcpy_ok {read : Nat → Except Fault UInt8} {count position : Nat}
    {written : List UInt8} {out : Buffer UInt8 size} (hwritten : written.length = position)
    (hposition : position ≤ size)
    (hcopy : memcpy read count position (Buffer.filled written) = .ok out) :
    (∀ i < count, ∃ byte, read i = .ok byte) ∧ position + count ≤ size := by
  subst hwritten
  rw [memcpy] at hcopy
  cases hread : (List.range count).mapM read with
  | error fault =>
      rw [hread] at hcopy
      cases hcopy
  | ok bytes =>
      refine ⟨fun i hi => ok_of_mapM_ok hread i (List.mem_range.mpr hi), ?_⟩
      have hlength := length_of_mapM_ok hread
      rw [List.length_range] at hlength
      by_contra houtside
      have hlong : size < (written ++ bytes).length := by
        rw [List.length_append]
        omega
      rw [hread] at hcopy
      cases (Buffer.writeAll_outside hposition hlong).symm.trans hcopy

theorem readAll_filled {bytes : List UInt8} (hlength : bytes.length = size) :
    (List.range size).mapM (Buffer.filled bytes : Buffer UInt8 size).read = .ok bytes := by
  subst hlength
  exact mapM_range_ok fun i hi => Buffer.read_filled hi hi

end Copies

section Block

variable {c : Config} {dataIn : List UInt8}

/-- The bytes that the constructor writes. -/
def Config.asmBytes (c : Config) : List UInt8 := hexstringToBinary c.asm

theorem make_ok (hsize : c.asmBytes.length ≤ c.asmLen) :
    make c = .ok { asm := Buffer.filled c.asmBytes, stop := false } := by
  rw [make, Ambiguity.hexstringInto_fresh hsize]
  rfl

theorem length_le_of_make_ok {b : Block c} (hmake : make c = .ok b) :
    c.asmBytes.length ≤ c.asmLen := by
  by_contra hlong
  have houtside : c.asmLen < ([] ++ hexstringToBinary c.asm).length := Nat.lt_of_not_le hlong
  rw [make, hexstringInto, ← Buffer.filled_nil,
    show (0 : Nat) = ([] : List UInt8).length from rfl,
    Buffer.writeAll_outside (Nat.zero_le _) houtside] at hmake
  cases hmake

theorem copy_asm (hasm : c.asmBytes.length = c.asmLen) (hinside : c.asmLen ≤ c.outLen) :
    memcpy (Buffer.filled c.asmBytes : Buffer UInt8 c.asmLen).read c.asmLen 0
      (Buffer.fresh UInt8 c.outLen) = .ok (Buffer.filled c.asmBytes) := by
  rw [← Buffer.filled_nil, ← List.nil_append c.asmBytes]
  exact memcpy_filled hasm rfl (fun i hi => Buffer.read_filled hi (hasm ▸ hi)) (by omega)

/-- With an ASM that fills its array, a frame that the message has completely and a length that
does not overflow. -/
theorem addAsm_ok (stop : Bool) (hasm : c.asmBytes.length = c.asmLen)
    (hlen : c.asmLen + c.frameLen < size32) (hframe : c.frameLen ≤ dataIn.length) :
    addAsm ({ asm := Buffer.filled c.asmBytes, stop } : Block c) dataIn =
      .ok (c.asmBytes ++ dataIn.take c.frameLen) := by
  have hout : c.asmLen + c.frameLen = c.outLen := (Nat.mod_eq_of_lt hlen).symm
  have htake : (dataIn.take c.frameLen).length = c.frameLen := List.length_take_of_le hframe
  have hcopy : memcpy (readByte dataIn) c.frameLen c.asmLen
      (Buffer.filled c.asmBytes : Buffer UInt8 c.outLen) =
        .ok (Buffer.filled (c.asmBytes ++ dataIn.take c.frameLen)) := by
    refine memcpy_filled htake hasm (fun i hi => ?_) hout.le
    have hinside : i < dataIn.length := by omega
    rw [readByte, List.getElem?_eq_getElem hinside, List.getElem_take]
  rw [addAsm, copy_asm hasm (by omega)]
  change (memcpy _ _ _ _).bind _ = _
  rw [hcopy]
  exact readAll_filled (by rw [List.length_append, hasm, htake, hout])

theorem of_addAsm_ok {b : Block c} {out : List UInt8} (hmake : make c = .ok b)
    (hadd : addAsm b dataIn = .ok out) : c.asmBytes.length = c.asmLen ∧
      c.asmLen + c.frameLen < size32 ∧ c.frameLen ≤ dataIn.length := by
  have hle := length_le_of_make_ok hmake
  rw [make_ok hle] at hmake
  cases hmake
  rw [addAsm] at hadd
  cases hfirst : memcpy (Buffer.filled c.asmBytes : Buffer UInt8 c.asmLen).read c.asmLen 0
      (Buffer.fresh UInt8 c.outLen) with
  | error fault =>
      rw [hfirst] at hadd
      cases hadd
  | ok first =>
      rw [hfirst] at hadd
      rw [← Buffer.filled_nil] at hfirst
      obtain ⟨hwritten, hinside⟩ := of_memcpy_ok List.length_nil (Nat.zero_le _) hfirst
      rw [Nat.zero_add] at hinside
      -- the first byte of the ASM without a value would have been read
      have hasm : c.asmBytes.length = c.asmLen := by
        by_contra hne
        have hshort : c.asmBytes.length < c.asmLen := by omega
        obtain ⟨byte, hbyte⟩ := hwritten _ hshort
        rw [Buffer.read_filled_of_le le_rfl hshort] at hbyte
        cases hbyte
      rw [Buffer.filled_nil, copy_asm hasm hinside] at hfirst
      cases hfirst
      change (memcpy _ _ _ _).bind _ = _ at hadd
      cases hsecond : memcpy (readByte dataIn) c.frameLen c.asmLen
          (Buffer.filled c.asmBytes : Buffer UInt8 c.outLen) with
      | error fault =>
          rw [hsecond] at hadd
          cases hadd
      | ok second =>
          obtain ⟨hread, hplace⟩ := of_memcpy_ok hasm hinside hsecond
          have hlen : c.outLen < size32 := Nat.mod_lt _ (by decide)
          refine ⟨hasm, by omega, ?_⟩
          by_contra hshort
          obtain ⟨byte, hbyte⟩ := hread _ (Nat.lt_of_not_le hshort)
          rw [readByte, List.getElem?_eq_none le_rfl] at hbyte
          cases hbyte

/-- The bytes of the string, without a digit that has no partner. -/
def Config.asmDigits (c : Config) : List UInt8 := hexBytes c.asm.toList

theorem length_asmDigits : c.asmDigits.length = c.asm.length / 2 := by
  rw [Config.asmDigits, length_hexBytes, String.length_toList]

/-- A string of odd length is not decoded, which is right only if it has a single digit. -/
theorem asmBytes_eq_asmDigits :
    c.asmBytes = c.asmDigits ↔ c.asm.length % 2 = 0 ∨ c.asm.length = 1 := by
  rw [Config.asmBytes, hexstringToBinary]
  split
  next hodd =>
    rw [eq_comm, ← List.length_eq_zero_iff, length_asmDigits]
    omega
  next heven => simp [Config.asmDigits, not_not.mp heven]

/-- The constructor and the handler stay inside their arrays, read only what has a value, and put
the ASM in front of the frame, if and only if the string has whole bytes, the message is not
shorter than the frame, and the length of the output can be counted. -/
theorem processFrame_publishes_iff (c : Config) (header : Header Other) (dataIn : List UInt8) :
    (∃ b, make c = .ok b ∧
      processFrame b (.pair (some header) (.blob dataIn) : Message Other Float) =
        .ok (b, [.pair (some header) (.blob (c.asmDigits ++ dataIn.take c.frameLen))])) ↔
      (c.asm.length % 2 = 0 ∨ c.asm.length = 1) ∧
        c.asm.length / 2 + c.frameLen < size32 ∧ c.frameLen ≤ dataIn.length := by
  have hasmLen : c.asmLen = c.asm.length / 2 % size32 := rfl
  constructor
  · rintro ⟨b, hmake, hprocess⟩
    obtain ⟨out, hadd, hout⟩ := Converters.except_map_ok hprocess
    have hsame : out = c.asmDigits ++ dataIn.take c.frameLen := by
      simpa using congrArg Prod.snd hout
    obtain ⟨hasm, hlen, hframe⟩ := of_addAsm_ok hmake hadd
    have hle := length_le_of_make_ok hmake
    rw [make_ok hle] at hmake
    cases hmake
    rw [addAsm_ok false hasm hlen hframe] at hadd
    have hdigits : c.asmBytes = c.asmDigits :=
      List.append_cancel_right ((Except.ok.inj hadd).trans hsame)
    rw [hdigits, length_asmDigits] at hasm
    exact ⟨asmBytes_eq_asmDigits.mp hdigits, by omega, hframe⟩
  · rintro ⟨hdigits, hlen, hframe⟩
    have hshort : c.asm.length / 2 < size32 := by omega
    have hsmall : c.asmLen = c.asm.length / 2 := Nat.mod_eq_of_lt hshort
    have hasm : c.asmBytes.length = c.asmLen := by
      rw [asmBytes_eq_asmDigits.mpr hdigits, length_asmDigits, hsmall]
    refine ⟨_, make_ok hasm.le, ?_⟩
    rw [processFrame, Data.blobData]
    simp only [addAsm_ok false hasm (hsmall ▸ hlen) hframe]
    rw [asmBytes_eq_asmDigits.mpr hdigits]
    rfl

end Block

/-- A message that is too short is read behind its end, and an odd digit leaves a byte without a
value. -/
example : (make ⟨"1ACF", 3⟩).bind (fun b => addAsm b [1, 2]) = .error (.outside 2) ∧
    (make ⟨"1AC", 2⟩).bind (fun b => addAsm b [1, 2]) = .error (.uninitialised 0) := by
  decide +kernel

end GrCcsds.MessageChain.AddAsm
