import GrCcsds.ConvDecode.Block
import GrCcsds.Foundation.Bits
import GrCcsds.FrameSync.Config
import Mathlib.Tactic.Common

/-! # Which configurations are accepted

`frame_sync_config::make` checks the lengths of ASM, payload, head and tail
against the number of bits per symbol. Every configuration of the block with a
nonempty ASM is accepted.
-/

namespace GrCcsds.FrameSync

open Foundation.Bits ConvDecode

/-- The functions of a constellation that the configuration uses. -/
structure Constellation (Sample : Type) where
  bitsPerSymbol : Nat
  dimensionality : Nat
  mapToPoints : Nat → List Sample

inductive Exception where
  | invalidParameter (msg : String)
  | symbolSyncNotPossible (msg : String)
  | constellationOneDimRequired (msg : String)
deriving DecidableEq, Repr

/-- `frame_sync_config_impl` -/
structure SyncConfig (Sample : Type) where
  asmLenSymbols : Nat
  asmLenSymbols_pos : 0 < asmLenSymbols
  asmSymbols : Vector Sample asmLenSymbols
  payloadLenSymbols : Nat
  headSymbols : Int
  tailSymbols : Int

/-- The lengths for the block, with the numbers of a `frame_generation_config`. -/
def SyncConfig.config {Sample : Type} (c : SyncConfig Sample) (framesBefore framesAfter : Nat) :
    Config where
  asmLen := c.asmLenSymbols
  asmLen_pos := c.asmLenSymbols_pos
  payloadLen := c.payloadLenSymbols
  head := c.headSymbols
  tail := c.tailSymbols
  framesBefore := framesBefore
  framesAfter := framesAfter

def fitsSymbols (numBits numBitsPerSymbol : Nat) : Bool := numBits % numBitsPerSymbol == 0

/-- Symbol `i` of `decode_hex_to_bits`, each collected in a byte. -/
def decodeHexToBits (hex : String) (numBitsPerSymbol i : Nat) : Nat :=
  (((ofBytes (hexBytes hex.toList)).drop (numBitsPerSymbol * i)).take numBitsPerSymbol).foldl
    (fun tmp bit => (tmp <<< 1) % 256 ||| bit.toNat) 0

def extractSymbol {Sample : Type} (constellation : Constellation Sample) (bits : Nat) :
    Except Exception Sample :=
  match constellation.mapToPoints bits with
  | [point] => .ok point
  | _ => .error (.constellationOneDimRequired
      "Constellation has to return exactly one constellation point for provided symbol.")

/-- `frame_sync_config::make` -/
def make {Sample : Type} (constellation : Constellation Sample) (asmHex : String)
    (asmLenBits payloadLenBits : Nat) (headLenBits tailLenBits : Int) :
    Except Exception (SyncConfig Sample) :=
  let bitsPerSymbol := constellation.bitsPerSymbol
  if asmHex.length * 8 / 2 < asmLenBits then
    .error (.invalidParameter
      "The number of ASM bits is larger than the number of bytes in the provided hexstring.")
  else if !fitsSymbols asmLenBits bitsPerSymbol then
    .error (.symbolSyncNotPossible
      "Number of ASM bits is not divisible by the number of bits per symbol.")
  else if !fitsSymbols payloadLenBits bitsPerSymbol then
    .error (.symbolSyncNotPossible
      "Number of ASM bits is not divisible by the number of bits per symbol.")
  else if !fitsSymbols headLenBits.natAbs bitsPerSymbol then
    .error (.symbolSyncNotPossible
      "Number of head bits is not divisible by the number of bits per symbol.")
  else if !fitsSymbols tailLenBits.natAbs bitsPerSymbol then
    .error (.symbolSyncNotPossible
      "Number of tail bits is not divisible by the number of bits per symbol.")
  else if constellation.dimensionality ≠ 1 then
    .error (.constellationOneDimRequired
      "Frame synchronization assumes one constellation point per symbol.")
  else
    let numAsmSymbols := asmLenBits / bitsPerSymbol
    if hzero : numAsmSymbols = 0 then
      .error (.invalidParameter "Effective ASM is 0 symbols long.")
    else do
      let asmSymbols ← (Vector.range numAsmSymbols).mapM fun i =>
        extractSymbol constellation (decodeHexToBits asmHex bitsPerSymbol i)
      return {
        asmLenSymbols := numAsmSymbols
        asmLenSymbols_pos := Nat.pos_of_ne_zero hzero
        asmSymbols := asmSymbols
        payloadLenSymbols := payloadLenBits / bitsPerSymbol
        headSymbols := headLenBits.tdiv bitsPerSymbol
        tailSymbols := tailLenBits.tdiv bitsPerSymbol }

/-- Real points with the sign of their only bit. -/
def signConstellation : Constellation Int where
  bitsPerSymbol := 1
  dimensionality := 1
  mapToPoints := fun bits => [if bits = 0 then -1 else 1]

theorem mapM_extractSymbol (asmHex : String) (num : Nat) :
    ∃ symbols, (Vector.range num).mapM (fun i =>
      extractSymbol signConstellation (decodeHexToBits asmHex 1 i)) = Except.ok symbols :=
  ⟨_, Vector.mapM_pure fun i => if decodeHexToBits asmHex 1 i = 0 then -1 else 1⟩

/-- Every configuration of the block is accepted. -/
theorem exists_make (cfg : Config) : ∃ (asmHex : String) (c : SyncConfig Int),
    make signConstellation asmHex cfg.asmLen cfg.payloadLen cfg.head cfg.tail = .ok c ∧
      c.config cfg.framesBefore cfg.framesAfter = cfg := by
  have hpos := cfg.asmLen_pos
  let asmHex := String.ofList (List.replicate (2 * cfg.asmLen) '0')
  have hlength : ¬ asmHex.length * 8 / 2 < cfg.asmLen := by
    rw [String.length_ofList, List.length_replicate]
    omega
  have hfits : ∀ numBits, (!fitsSymbols numBits 1) = false := by
    intro numBits
    simp [fitsSymbols, Nat.mod_one]
  have hsome : cfg.asmLen / 1 ≠ 0 := by
    rw [Nat.div_one]
    exact hpos.ne'
  obtain ⟨symbols, hsymbols⟩ := mapM_extractSymbol asmHex (cfg.asmLen / 1)
  refine ⟨asmHex, ⟨cfg.asmLen / 1, Nat.pos_of_ne_zero hsome, symbols, cfg.payloadLen / 1,
    cfg.head.tdiv 1, cfg.tail.tdiv 1⟩, ?_, ?_⟩
  · unfold make
    rw [if_neg hlength, if_neg, if_neg, if_neg, if_neg, if_neg]
    · dsimp only
      refine (dif_neg hsome).trans ?_
      exact (congrArg (fun result => Except.bind result _) hsymbols).trans rfl
    all_goals simp [signConstellation, hfits]
  · cases cfg
    simp [SyncConfig.config]

end GrCcsds.FrameSync
