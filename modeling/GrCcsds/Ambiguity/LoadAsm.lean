import GrCcsds.Foundation.Uninitialised
import GrCcsds.FrameSync.HexDecoder

/-! # The ASM of the ambiguity resolver

The constructor decodes the hex string into a temporary buffer of as many bytes
as `asm_len` needs, and reads the bits of the ASM from it. The buffer is not
initialised, and the string alone determines how much of it is written.
-/

namespace GrCcsds.Ambiguity

open Foundation Foundation.Bits Foundation.Uninitialised Utils ConvDecode

variable {R : Type} [One R] [Neg R]

/-- The soft value of a bit of the ASM. -/
def asmValue (bit : Bool) : R := if bit then 1 else -1

/-- `hexstring_to_binary` on a buffer. Its counter cannot wrap before it is behind the buffer of
the constructor. -/
def hexstringInto {size : Nat} (str : String) (bin : Buffer UInt8 size) :
    Except Fault (Buffer UInt8 size) :=
  bin.writeAll (hexstringToBinary str) 0

/-- One iteration of the loop that fills `d_ASM`. -/
def readAsmValue {size : Nat} (tmp : Buffer UInt8 size) (i : Nat) : Except Fault R :=
  (tmp.read (i / 8)).map fun byte =>
    asmValue ((byte >>> UInt8.ofNat (7 - i % 8)) &&& 0x01 == 0x01)

/-- The part of the constructor that sets `d_ASM`. -/
def loadAsm (asm : String) (asmLen : Nat) : Except Fault (List R) :=
  (hexstringInto asm (Buffer.fresh UInt8 (divideCeil asmLen 8))).bind fun tmp =>
    (List.range asmLen).mapM (readAsmValue tmp)

section Load

variable {asm : String} {asmLen : Nat}

theorem readAsmValue_filled {size i : Nat} {bytes : List UInt8} (hsize : bytes.length ≤ size)
    (hi : i < (ofBytes bytes).length) :
    readAsmValue (Buffer.filled bytes : Buffer UInt8 size) i =
      .ok (asmValue (ofBytes bytes)[i] : R) := by
  have hbyte : i / 8 < bytes.length := by
    rw [length_ofBytes] at hi
    omega
  have hshift : 7 - i % 8 < 8 := by omega
  have hbit : ∀ bit : Bool, (UInt8.ofBitVec ((BitVec.ofBool bit).setWidth 8) == 0x01) = bit := by
    decide
  rw [readAsmValue, Buffer.read_filled hbyte (Nat.lt_of_lt_of_le hbyte hsize),
    getElem_ofBytes hi hbyte, Except.map, FrameSync.shift_and_one _ hshift, hbit]

theorem hexstringInto_fresh {size : Nat} (hsize : (hexstringToBinary asm).length ≤ size) :
    hexstringInto asm (Buffer.fresh UInt8 size) = .ok (Buffer.filled (hexstringToBinary asm)) := by
  have hinside : ([] ++ hexstringToBinary asm).length ≤ size := hsize
  rw [hexstringInto, ← Buffer.filled_nil]
  exact Buffer.writeAll_filled hinside

/-- A string that has just the bytes of the buffer is read back bit by bit. -/
theorem loadAsm_of_length_eq
    (hlength : (hexstringToBinary asm).length = divideCeil asmLen 8) :
    loadAsm asm asmLen =
      .ok (((ofBytes (hexstringToBinary asm)).take asmLen).map asmValue : List R) := by
  have hbits : asmLen ≤ (ofBytes (hexstringToBinary asm)).length := by
    rw [length_ofBytes, hlength]
    exact le_mul_divideCeil asmLen (by decide)
  have hread : ∀ i ∈ List.range asmLen,
      readAsmValue (Buffer.filled (hexstringToBinary asm) : Buffer UInt8 (divideCeil asmLen 8)) i =
        .ok (asmValue ((ofBytes (hexstringToBinary asm))[i]?.getD false) : R) := by
    intro i hi
    have hinside : i < (ofBytes (hexstringToBinary asm)).length :=
      (List.mem_range.mp hi).trans_le hbits
    rw [readAsmValue_filled hlength.le hinside, List.getElem?_eq_getElem hinside]
    rfl
  rw [loadAsm, hexstringInto_fresh hlength.le]
  refine (mapM_ok hread).trans (congrArg Except.ok ?_)
  apply List.ext_getElem
  · rw [List.length_map, List.length_range, List.length_map, List.length_take,
      Nat.min_eq_left hbits]
  · intro i hi _
    rw [List.length_map, List.length_range] at hi
    rw [List.getElem_map, List.getElem_map, List.getElem_range, List.getElem_take,
      List.getElem?_eq_getElem (hi.trans_le hbits)]
    rfl

/-- Without a fault the string has just the bytes of the buffer. -/
theorem length_eq_of_loadAsm_ok {values : List R} (hload : loadAsm asm asmLen = .ok values) :
    (hexstringToBinary asm).length = divideCeil asmLen 8 := by
  rcases Nat.lt_trichotomy (hexstringToBinary asm).length (divideCeil asmLen 8) with
    hshort | heq | hlong
  · rw [loadAsm, hexstringInto_fresh hshort.le] at hload
    -- the first bit behind the written bytes is still a bit of the ASM
    have hmissing : 8 * (hexstringToBinary asm).length < asmLen := by
      by_contra hle
      have hceil : divideCeil asmLen 8 ≤ (hexstringToBinary asm).length :=
        divideCeil_le_of_le_mul (by omega)
      omega
    obtain ⟨value, hvalue⟩ := ok_of_mapM_ok hload _ (List.mem_range.mpr hmissing)
    rw [readAsmValue, Nat.mul_div_cancel_left _ (by decide),
      Buffer.read_filled_of_le le_rfl hshort] at hvalue
    cases hvalue
  · exact heq
  · have hwrite : hexstringInto asm (Buffer.fresh UInt8 (divideCeil asmLen 8)) =
        .error (.outside (divideCeil asmLen 8)) := by
      have houtside : divideCeil asmLen 8 < ([] ++ hexstringToBinary asm).length := hlong
      rw [hexstringInto, ← Buffer.filled_nil]
      exact Buffer.writeAll_outside (Nat.zero_le _) houtside
    rw [loadAsm, hwrite] at hload
    cases hload

/-- The constructor stays inside its buffer, reads only what has been written and stores the first
bits of the string if and only if the string has two digits for every byte of the buffer. -/
theorem loadAsm_iff (hpos : 1 ≤ asmLen) :
    loadAsm asm asmLen = .ok (((FrameSync.hexBits asm).take asmLen).map asmValue : List R) ↔
      asm.length % 2 = 0 ∧ asm.length / 2 = divideCeil asmLen 8 := by
  have hbuffer : 0 < divideCeil asmLen 8 := by
    obtain ⟨len, rfl⟩ := Nat.exists_eq_add_of_le' hpos
    rw [divideCeil_succ]
    exact Nat.succ_pos _
  by_cases heven : asm.length % 2 = 0
  · have hbits : ofBytes (hexstringToBinary asm) = FrameSync.hexBits asm := by
      rw [hexstringToBinary, if_neg (not_not.mpr heven)]
      exact FrameSync.ofBytes_hexBytes (by rwa [String.length_toList])
    have hbytes : (hexstringToBinary asm).length = asm.length / 2 := by
      have hlength := congrArg List.length hbits
      rw [length_ofBytes, FrameSync.length_hexBits] at hlength
      omega
    rw [← hbits, ← hbytes]
    constructor
    · intro hload
      exact ⟨heven, length_eq_of_loadAsm_ok hload⟩
    · rintro ⟨-, hlength⟩
      exact loadAsm_of_length_eq hlength
  · have hnone : hexstringToBinary asm = [] := if_pos heven
    constructor
    · intro hload
      have hlength := length_eq_of_loadAsm_ok hload
      rw [hnone] at hlength
      exact absurd hlength hbuffer.ne
    · rintro ⟨hparity, -⟩
      exact absurd hparity heven

theorem loadAsm_wholeBytes :
    loadAsm "1ACFFC1D" 32 =
      .ok (((FrameSync.hexBits "1ACFFC1D").take 32).map asmValue : List Int) :=
  (loadAsm_iff (by decide)).mpr (by decide)

/-- A string of odd length is not written at all, one digit pair too much is written behind the
buffer, and one too few leaves a byte without a value. -/
theorem loadAsm_faults :
    (loadAsm "1AC" 12 : Except Fault (List Int)) = .error (.uninitialised 0) ∧
    (loadAsm "1ACFFC1D" 16 : Except Fault (List Int)) = .error (.outside 2) ∧
    (loadAsm "1ACF" 32 : Except Fault (List Int)) = .error (.uninitialised 2) := by
  decide +kernel

end Load

end GrCcsds.Ambiguity
