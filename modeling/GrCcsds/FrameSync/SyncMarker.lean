import GrCcsds.FrameSync.Arguments

/-! # The attached sync marker as bits and as bytes

`asm_bits` and `asm_bytes` of a configuration. Both decode the string of `make`
again, the one up to the length of the ASM, the other completely.
-/

namespace GrCcsds.FrameSync

open Foundation Foundation.Bits

/-- The members of `frame_sync_config_impl` that the functions on the ASM read. -/
structure SyncMarker (Sample : Type) where
  constellation : Constellation Sample
  asmHex : String
  asmLenSymbols : Nat

/-- How `asm_bytes` ends without a result. -/
inductive MarkerFailure where
  | notAvailable (msg : String)
  | decoder (failure : Failure)
deriving DecidableEq, Repr

namespace SyncMarker

variable {Sample : Type} (m : SyncMarker Sample)

def asmNumBits : Nat := m.asmLenSymbols * m.constellation.bitsPerSymbol

def asmBits : Except Failure (Vector UInt8 m.asmLenSymbols) :=
  decodeHexToSymbols m.asmHex m.constellation.bitsPerSymbol m.asmLenSymbols

def asmBytes : Except MarkerFailure (List UInt8) :=
  if m.asmLenSymbols * m.constellation.bitsPerSymbol % 8 ≠ 0 then
    .error (.notAvailable "Number of ASM bits is not an integer number of bytes.")
  else (decodeHex m.asmHex).mapError .decoder

/-- The bytes are those of the ASM, and the symbols are the pieces of their bits. -/
def Same : Prop :=
  ∃ bytes symbols, m.asmBytes = .ok bytes ∧ m.asmBits = .ok symbols ∧
    bytes.length = m.asmNumBits / 8 ∧
    ∀ i (hi : i < m.asmLenSymbols),
      symbols[i].toNat = value (slice m.constellation.bitsPerSymbol i (ofBytes bytes))

end SyncMarker

namespace Arguments

variable {Sample : Type} (a : Arguments Sample) {c : SyncConfig Sample}

/-- The members that `make` gives to a configuration. -/
def marker (c : SyncConfig Sample) : SyncMarker Sample where
  constellation := a.constellation
  asmHex := a.asmHex
  asmLenSymbols := c.asmLenSymbols

section Accepted

variable {a} (haccepted : a.Accepted) (points : Fin a.numAsmSymbols → Sample)

include haccepted

theorem Accepted.asmNumBits_marker :
    (a.marker (a.config haccepted.asm_some points)).asmNumBits = a.asmLenBits :=
  Nat.div_mul_cancel haccepted.asm_len

theorem Accepted.asmBytes_marker (heven : a.asmHex.length % 2 = 0) (hdvd : 8 ∣ a.asmLenBits) :
    ∃ bytes, (a.marker (a.config haccepted.asm_some points)).asmBytes = .ok bytes ∧
      ofBytes bytes = hexBits a.asmHex := by
  obtain ⟨bytes, hdecode, hbits⟩ := decodeHex_eq heven
  have hwhole : ¬ (a.numAsmSymbols * a.bitsPerSymbol % 8 ≠ 0) := by
    rw [numAsmSymbols, Nat.div_mul_cancel haccepted.asm_len, not_not]
    exact Nat.mod_eq_zero_of_dvd hdvd
  refine ⟨bytes, (if_neg hwhole).trans ?_, hbits⟩
  exact congrArg (fun result => Except.mapError MarkerFailure.decoder result) hdecode

theorem Accepted.asmBits_marker (heven : a.asmHex.length % 2 = 0) :
    (a.marker (a.config haccepted.asm_some points)).asmBits =
      .ok (Vector.ofFn fun i : Fin a.numAsmSymbols =>
        symbolByte (slice a.bitsPerSymbol i (hexBits a.asmHex))) := by
  apply decodeHexToSymbols_eq heven haccepted.bitsPerSymbol_pos
    (Nat.pos_of_ne_zero haccepted.asm_some)
  have hhex := haccepted.asm_hex
  have hmul : a.bitsPerSymbol * a.numAsmSymbols ≤ a.asmLenBits := Nat.mul_div_le _ _
  change a.bitsPerSymbol * a.numAsmSymbols ≤ 4 * a.asmHex.length
  omega

end Accepted

/-- A symbol of the whole string. -/
theorem value_slice_hexBits {i : Nat} (hi : i < a.numAsmSymbols) :
    value (slice a.bitsPerSymbol i (hexBits a.asmHex)) = a.asmSymbol i := by
  have hinside : a.bitsPerSymbol * (i + 1) ≤ a.asmLenBits :=
    le_trans (Nat.mul_le_mul_left _ hi) (Nat.mul_div_le _ _)
  rw [asmSymbol, slice_take _ hinside]

/-- Bits and bytes of a configuration are the same ASM if it is the whole string and its
symbols fit in bytes. -/
theorem marker_same_iff (hone : a.constellation.OneDimensional) (hok : a.result = .ok c)
    (hdvd : 8 ∣ (a.marker c).asmNumBits) :
    (a.marker c).Same ↔
      a.asmLenBits = 4 * a.asmHex.length ∧ ∀ i < a.numAsmSymbols, a.asmSymbol i < 256 := by
  obtain ⟨haccepted, heven, points, -, rfl⟩ := Accepted.of_result_ok hone hok
  rw [haccepted.asmNumBits_marker points] at hdvd
  obtain ⟨bytes, hasmBytes, hbits⟩ := haccepted.asmBytes_marker points heven hdvd
  have hasmBits := haccepted.asmBits_marker points heven
  have hlength := congrArg List.length hbits
  rw [length_ofBytes, length_hexBits] at hlength
  have hsymbol : ∀ i (hi : i < a.numAsmSymbols),
      (Vector.ofFn fun i : Fin a.numAsmSymbols =>
          symbolByte (slice a.bitsPerSymbol i (hexBits a.asmHex)))[i].toNat =
        value (slice a.bitsPerSymbol i (ofBytes bytes)) ↔ a.asmSymbol i < 256 := by
    intro i hi
    rw [Vector.getElem_ofFn, toNat_symbolByte hi, hbits, a.value_slice_hexBits hi]
    exact Nat.mod_eq_iff_lt (by decide)
  have hwhole : bytes.length = a.asmLenBits / 8 ↔ a.asmLenBits = 4 * a.asmHex.length := by
    omega
  constructor
  · rintro ⟨other, symbols, hother, hsymbols, hcount, hsame⟩
    cases hasmBytes.symm.trans hother
    cases hasmBits.symm.trans hsymbols
    rw [haccepted.asmNumBits_marker points] at hcount
    exact ⟨hwhole.mp hcount, fun i hi => (hsymbol i hi).mp (hsame i hi)⟩
  · rintro ⟨hall, hsmall⟩
    refine ⟨bytes, _, hasmBytes, hasmBits, ?_, fun i hi => (hsymbol i hi).mpr (hsmall i hi)⟩
    rw [haccepted.asmNumBits_marker points]
    exact hwhole.mpr hall

theorem marker_same_wholeBytes :
    ∃ c, wholeBytes.result = .ok c ∧ (wholeBytes.marker c).Same := by
  have hresult : wholeBytes.result.toOption.map (fun c => (wholeBytes.marker c).asmNumBits) =
      some 32 := by decide +kernel
  cases hok : wholeBytes.result with
  | error failure =>
      rw [hok] at hresult
      cases hresult
  | ok c =>
      rw [hok] at hresult
      have hbits : (wholeBytes.marker c).asmNumBits = 32 := Option.some.inj hresult
      have hdvd : 8 ∣ (wholeBytes.marker c).asmNumBits := by
        rw [hbits]
        decide
      exact ⟨c, rfl, (marker_same_iff wholeBytes signConstellation_oneDimensional hok hdvd).mpr
        ⟨by decide, by decide +kernel⟩⟩

/-- The first two bytes of a marker of four. -/
def firstBytes : Arguments Int := { wholeBytes with asmLenBits := 16 }

/-- The bytes are those of the whole string. -/
theorem firstBytes_not_same :
    firstBytes.constellation.OneDimensional ∧
      ∃ c, firstBytes.result = .ok c ∧ (firstBytes.marker c).asmNumBits = 16 ∧
        (firstBytes.marker c).asmBytes = .ok [0x1A, 0xCF, 0xFC, 0x1D] ∧
        ¬ (firstBytes.marker c).Same := by
  have hresult : firstBytes.result.toOption.map (fun c => ((firstBytes.marker c).asmNumBits,
      (firstBytes.marker c).asmBytes.toOption)) = some (16, some [0x1A, 0xCF, 0xFC, 0x1D]) := by
    decide +kernel
  refine ⟨signConstellation_oneDimensional, ?_⟩
  cases hok : firstBytes.result with
  | error failure =>
      rw [hok] at hresult
      cases hresult
  | ok c =>
      rw [hok] at hresult
      obtain ⟨hbits, hbytes⟩ := Prod.mk.inj (Option.some.inj hresult)
      have hasmBytes : (firstBytes.marker c).asmBytes = .ok [0x1A, 0xCF, 0xFC, 0x1D] := by
        cases hdecode : (firstBytes.marker c).asmBytes with
        | error failure =>
            rw [hdecode] at hbytes
            cases hbytes
        | ok bytes =>
            rw [hdecode] at hbytes
            exact congrArg Except.ok (Option.some.inj hbytes)
      refine ⟨c, rfl, hbits, hasmBytes, ?_⟩
      rintro ⟨bytes, symbols, hother, -, hcount, -⟩
      cases hasmBytes.symm.trans hother
      rw [hbits] at hcount
      exact absurd hcount (by decide)

end Arguments

end GrCcsds.FrameSync
