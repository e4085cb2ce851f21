import GrCcsds.FrameSync.HexDecoder
import Mathlib.Algebra.Order.Ring.Int

/-! # The arguments of a configuration

`frame_sync_config::make` with all that can end it: its exceptions, the
assertions of the hex decoder and operations without a result. The checks of the
arguments leave out the parity of the string, the sign of the length of a frame
and symbols that do not fit in a byte.
-/

namespace GrCcsds.FrameSync

open Foundation Foundation.Bits Utils

/-- The least value of an `int`. -/
def intMin : Int := -2 ^ 31

variable {Sample : Type}

/-- An exception, or a result with a property. -/
def ThrowsOr {α : Type} (post : α → Prop) : Except Failure α → Prop
  | .ok x => post x
  | .error (.thrown _) => True
  | .error _ => False

namespace Checked

/-- A remainder by zero is undefined. -/
def fitsSymbols (numBits numBitsPerSymbol : Nat) : Except Failure Bool :=
  if numBitsPerSymbol = 0 then .error .undefined
  else .ok (FrameSync.fitsSymbols numBits numBitsPerSymbol)

/-- `std::abs` is undefined for the least value. -/
def abs (len : Int) : Except Failure Nat :=
  if len = intMin then .error .undefined else .ok len.natAbs

/-- An exception is thrown unless a check succeeds. -/
def require (check : Except Failure Bool) (e : Exception) : Except Failure Unit :=
  check.bind fun holds => if holds then .ok () else .error (.thrown e)

def extractSymbol (constellation : Constellation Sample) (bits : UInt8) :
    Except Failure Sample :=
  (FrameSync.extractSymbol constellation bits.toNat).mapError .thrown

/-- The last part of `make`, after the checks. -/
def build (constellation : Constellation Sample) (asmHex : String)
    (asmLenBits payloadLenBits : Nat) (headLenBits tailLenBits : Int) :
    Except Failure (SyncConfig Sample) :=
  let bitsPerSymbol := constellation.bitsPerSymbol
  let numAsmSymbols := asmLenBits / bitsPerSymbol
  if hzero : numAsmSymbols = 0 then
    .error (.thrown (.invalidParameter "Effective ASM is 0 symbols long."))
  else do
    let asmSymbolsBin ← decodeHexToSymbols asmHex bitsPerSymbol numAsmSymbols
    let asmSymbols ← asmSymbolsBin.mapM (extractSymbol constellation)
    return {
      asmLenSymbols := numAsmSymbols
      asmLenSymbols_pos := Nat.pos_of_ne_zero hzero
      asmSymbols := asmSymbols
      payloadLenSymbols := payloadLenBits / bitsPerSymbol
      -- The cast of `bitsPerSymbol` to `int` changes it only where both lengths are zero.
      headSymbols := headLenBits.tdiv bitsPerSymbol
      tailSymbols := tailLenBits.tdiv bitsPerSymbol }

/-- `frame_sync_config::make` with assertions. -/
def make (constellation : Constellation Sample) (asmHex : String)
    (asmLenBits payloadLenBits : Nat) (headLenBits tailLenBits : Int) :
    Except Failure (SyncConfig Sample) := do
  let bitsPerSymbol := constellation.bitsPerSymbol
  require (.ok (asmLenBits ≤ asmHex.length * 8 / 2)) (.invalidParameter
    "The number of ASM bits is larger than the number of bytes in the provided hexstring.")
  require (fitsSymbols asmLenBits bitsPerSymbol) (.symbolSyncNotPossible
    "Number of ASM bits is not divisible by the number of bits per symbol.")
  require (fitsSymbols payloadLenBits bitsPerSymbol) (.symbolSyncNotPossible
    "Number of ASM bits is not divisible by the number of bits per symbol.")
  require (do fitsSymbols (← abs headLenBits) bitsPerSymbol) (.symbolSyncNotPossible
    "Number of head bits is not divisible by the number of bits per symbol.")
  require (do fitsSymbols (← abs tailLenBits) bitsPerSymbol) (.symbolSyncNotPossible
    "Number of tail bits is not divisible by the number of bits per symbol.")
  require (.ok (constellation.dimensionality = 1)) (.constellationOneDimRequired
    "Frame synchronization assumes one constellation point per symbol.")
  build constellation asmHex asmLenBits payloadLenBits headLenBits tailLenBits

end Checked

/-! ## The checks -/

section Checks

variable {α β : Type} {post : β → Prop}

@[simp] theorem throwsOr_ok (y : β) : ThrowsOr post (.ok y) ↔ post y := Iff.rfl

theorem throwsOr_bind (x : Except Failure α) (f : α → Except Failure β) :
    ThrowsOr post (x >>= f) ↔ ThrowsOr (fun y => ThrowsOr post (f y)) x := by
  cases x with
  | error failure => cases failure <;> rfl
  | ok y => rfl

theorem throwsOr_require {post : Unit → Prop} (check : Except Failure Bool) (e : Exception) :
    ThrowsOr post (Checked.require check e) ↔
      ThrowsOr (fun holds => holds = true → post ()) check := by
  refine (throwsOr_bind check _).trans ?_
  cases check with
  | error failure => cases failure <;> rfl
  | ok holds => cases holds <;> simp [ThrowsOr]

theorem throwsOr_fitsSymbols {post : Bool → Prop} (numBits k : Nat) :
    ThrowsOr post (Checked.fitsSymbols numBits k) ↔
      k ≠ 0 ∧ post (FrameSync.fitsSymbols numBits k) := by
  unfold Checked.fitsSymbols
  split
  next hzero => simp [ThrowsOr, hzero]
  next hpos => simp [ThrowsOr, hpos]

theorem throwsOr_abs {post : Nat → Prop} (len : Int) :
    ThrowsOr post (Checked.abs len) ↔ len ≠ intMin ∧ post len.natAbs := by
  unfold Checked.abs
  split
  next hmin => simp [ThrowsOr, hmin]
  next hne => simp [ThrowsOr, hne]

theorem fitsSymbols_iff (numBits k : Nat) :
    FrameSync.fitsSymbols numBits k = true ↔ k ∣ numBits := by
  rw [FrameSync.fitsSymbols, beq_iff_eq, Nat.dvd_iff_mod_eq_zero]

end Checks

/-! ## The length of a frame -/

/-- Unsigned lengths are extended modulo the size of their type. -/
theorem extendLen_emod {outputLen : Nat} {len : Int} (houtput : outputLen < size64)
    (hlen : intMin ≤ len) :
    (extendLen outputLen len : Int) = (outputLen + len) % size64 := by
  unfold extendLen minusWrap
  unfold intMin at hlen
  unfold size64 at *
  split
  next hneg => omega
  next =>
    split
    next hpos => omega
    next hzero => omega

theorem extendLen_lt {outputLen : Nat} {len : Int} (houtput : outputLen < size64)
    (hlen : intMin ≤ len) : extendLen outputLen len < size64 := by
  have hemod := extendLen_emod houtput hlen
  unfold size64 at *
  omega

theorem computeOutputLen_emod {payloadLen : Nat} {headLen tailLen : Int}
    (hpayload : payloadLen < size64) (hhead : intMin ≤ headLen) (htail : intMin ≤ tailLen) :
    (computeOutputLen payloadLen headLen tailLen : Int) =
      (payloadLen + headLen + tailLen) % size64 := by
  rw [computeOutputLen, extendLen_emod (extendLen_lt hpayload hhead) htail,
    extendLen_emod hpayload hhead, Int.emod_add_emod]

theorem intMin_le_tdiv {len : Int} (hlen : intMin ≤ len) (k : Nat) : intMin ≤ len.tdiv k := by
  have hzero : intMin ≤ 0 := by decide
  rcases le_total 0 len with hnonneg | hneg
  · exact le_trans hzero (Int.tdiv_nonneg hnonneg (Int.natCast_nonneg k))
  · have hdiv : (-len).tdiv k ≤ -len := Int.tdiv_le_self _ (neg_nonneg.mpr hneg)
    rw [Int.neg_tdiv] at hdiv
    omega

/-- The length of a frame is right if it is an unsigned number. -/
theorem computeOutputLen_eq_iff {payloadLen : Nat} {headLen tailLen : Int}
    (hpayload : payloadLen < size64) (hhead : intMin ≤ headLen) (htail : intMin ≤ tailLen) :
    (computeOutputLen payloadLen headLen tailLen : Int) = payloadLen + headLen + tailLen ↔
      0 ≤ payloadLen + headLen + tailLen ∧ payloadLen + headLen + tailLen < size64 := by
  rw [computeOutputLen_emod hpayload hhead htail]
  have hsize : (0 : Int) < size64 := by decide
  constructor
  · intro heq
    rw [← heq]
    exact ⟨Int.emod_nonneg _ hsize.ne', Int.emod_lt_of_pos _ hsize⟩
  · intro hrange
    exact Int.emod_eq_of_lt hrange.1 hrange.2

/-! ## What the arguments describe -/

/-- `output_num_symbols` -/
def SyncConfig.outputNumSymbols (c : SyncConfig Sample) : Nat :=
  computeOutputLen c.payloadLenSymbols c.headSymbols c.tailSymbols

/-- Every symbol has exactly one point. -/
structure Constellation.OneDimensional (constellation : Constellation Sample) : Prop where
  dimensionality_eq : constellation.dimensionality = 1
  exists_point : ∀ bits < 2 ^ constellation.bitsPerSymbol,
    ∃ point, constellation.mapToPoints bits = [point]

/-- The arguments of `make`, with the ranges of their types. -/
structure Arguments (Sample : Type) where
  constellation : Constellation Sample
  asmHex : String
  asmLenBits : Nat
  payloadLenBits : Nat
  payloadLenBits_lt : payloadLenBits < size64
  headLenBits : Int
  intMin_le_head : intMin ≤ headLenBits
  tailLenBits : Int
  intMin_le_tail : intMin ≤ tailLenBits

namespace Arguments

variable (a : Arguments Sample)

def bitsPerSymbol : Nat := a.constellation.bitsPerSymbol

def numAsmSymbols : Nat := a.asmLenBits / a.bitsPerSymbol

def result : Except Failure (SyncConfig Sample) :=
  Checked.make a.constellation a.asmHex a.asmLenBits a.payloadLenBits a.headLenBits a.tailLenBits

/-- Symbol `i` of the first `asmLenBits` bits of the string. -/
def asmSymbol (i : Nat) : Nat :=
  value (slice a.bitsPerSymbol i ((hexBits a.asmHex).take a.asmLenBits))

/-- The configuration that the arguments describe. -/
structure Describes (c : SyncConfig Sample) : Prop where
  asm_len : c.asmLenSymbols * a.bitsPerSymbol = a.asmLenBits
  asm_symbols : ∀ i (hi : i < c.asmLenSymbols),
    a.constellation.mapToPoints (a.asmSymbol i) = [c.asmSymbols[i]]
  payload : c.payloadLenSymbols * a.bitsPerSymbol = a.payloadLenBits
  head : c.headSymbols * a.bitsPerSymbol = a.headLenBits
  tail : c.tailSymbols * a.bitsPerSymbol = a.tailLenBits
  output : (c.outputNumSymbols : Int) = c.payloadLenSymbols + c.headSymbols + c.tailSymbols

/-- An exception, or the configuration that the arguments describe. -/
def Meets : Prop := ThrowsOr a.Describes a.result

/-- No check before one that throws divides by zero or negates the least value of an `int`. -/
structure ChecksDefined : Prop where
  bits_per_symbol : a.asmLenBits ≤ a.asmHex.length * 8 / 2 → a.bitsPerSymbol ≠ 0
  head : a.asmLenBits ≤ a.asmHex.length * 8 / 2 → a.bitsPerSymbol ∣ a.asmLenBits →
    a.bitsPerSymbol ∣ a.payloadLenBits → a.headLenBits ≠ intMin
  tail : a.asmLenBits ≤ a.asmHex.length * 8 / 2 → a.bitsPerSymbol ∣ a.asmLenBits →
    a.bitsPerSymbol ∣ a.payloadLenBits → (a.bitsPerSymbol : Int) ∣ a.headLenBits →
    a.tailLenBits ≠ intMin

/-- All checks succeed. -/
structure Accepted : Prop where
  asm_hex : a.asmLenBits ≤ a.asmHex.length * 8 / 2
  asm_len : a.bitsPerSymbol ∣ a.asmLenBits
  payload : a.bitsPerSymbol ∣ a.payloadLenBits
  head : (a.bitsPerSymbol : Int) ∣ a.headLenBits
  tail : (a.bitsPerSymbol : Int) ∣ a.tailLenBits
  asm_some : a.numAsmSymbols ≠ 0

theorem Accepted.bitsPerSymbol_pos {a : Arguments Sample} (haccepted : a.Accepted) :
    0 < a.bitsPerSymbol := by
  apply Nat.pos_of_ne_zero
  intro hzero
  apply haccepted.asm_some
  rw [numAsmSymbols, hzero, Nat.div_zero]

/-- What is left unchecked. -/
structure Complete : Prop where
  even_length : a.asmHex.length % 2 = 0
  output_nonneg : 0 ≤ a.payloadLenBits + a.headLenBits + a.tailLenBits
  output_lt : a.payloadLenBits + a.headLenBits + a.tailLenBits < size64 * a.bitsPerSymbol
  low_bytes : ∀ i < a.numAsmSymbols,
    a.constellation.mapToPoints (a.asmSymbol i % 256) =
      a.constellation.mapToPoints (a.asmSymbol i)

/-- The last part of `make` with these arguments. -/
def build : Except Failure (SyncConfig Sample) :=
  Checked.build a.constellation a.asmHex a.asmLenBits a.payloadLenBits a.headLenBits a.tailLenBits

/-- The checks succeed one after the other up to one that throws. -/
theorem throwsOr_checks (hone : a.constellation.OneDimensional)
    (post : SyncConfig Sample → Prop) :
    ThrowsOr post a.result ↔ (a.asmLenBits ≤ a.asmHex.length * 8 / 2 →
      a.bitsPerSymbol ≠ 0 ∧ (a.bitsPerSymbol ∣ a.asmLenBits → a.bitsPerSymbol ∣ a.payloadLenBits →
        a.headLenBits ≠ intMin ∧ ((a.bitsPerSymbol : Int) ∣ a.headLenBits →
          a.tailLenBits ≠ intMin ∧ ((a.bitsPerSymbol : Int) ∣ a.tailLenBits →
            ThrowsOr post a.build)))) := by
  unfold result Checked.make
  simp only [throwsOr_bind, throwsOr_require, throwsOr_fitsSymbols, throwsOr_ok, throwsOr_abs,
    decide_eq_true_iff, fitsSymbols_iff, hone.dimensionality_eq, ← Int.natCast_dvd]
  change (_ → a.bitsPerSymbol ≠ 0 ∧ _) ↔ _
  tauto

/-- An ASM without symbols is rejected. -/
theorem throwsOr_build_zero (hzero : a.numAsmSymbols = 0)
    (post : SyncConfig Sample → Prop) : ThrowsOr post a.build := by
  have hbuild : a.build =
      .error (.thrown (.invalidParameter "Effective ASM is 0 symbols long.")) := dif_pos hzero
  rw [hbuild]
  trivial

theorem throwsOr_result_iff (hone : a.constellation.OneDimensional)
    (post : SyncConfig Sample → Prop) :
    ThrowsOr post a.result ↔ a.ChecksDefined ∧ (a.Accepted → ThrowsOr post a.build) := by
  rw [throwsOr_checks a hone]
  constructor
  · intro hchecks
    refine ⟨?_, ?_⟩
    · exact {
        bits_per_symbol := fun hhex => (hchecks hhex).1
        head := fun hhex hasm hpayload => ((hchecks hhex).2 hasm hpayload).1
        tail := fun hhex hasm hpayload hhead =>
          (((hchecks hhex).2 hasm hpayload).2 hhead).1 }
    · intro haccepted
      obtain ⟨_, hlengths⟩ := hchecks haccepted.asm_hex
      obtain ⟨_, hends⟩ := hlengths haccepted.asm_len haccepted.payload
      obtain ⟨_, hbuild⟩ := hends haccepted.head
      exact hbuild haccepted.tail
  · rintro ⟨hdefined, hbuild⟩ hhex
    refine ⟨hdefined.bits_per_symbol hhex, fun hasm hpayload => ?_⟩
    refine ⟨hdefined.head hhex hasm hpayload, fun hhead => ?_⟩
    refine ⟨hdefined.tail hhex hasm hpayload hhead, fun htail => ?_⟩
    by_cases hzero : a.numAsmSymbols = 0
    · exact a.throwsOr_build_zero hzero post
    · exact hbuild ⟨hhex, hasm, hpayload, hhead, htail, hzero⟩

/-! ## The configuration -/

section Config

variable {a}

theorem toNat_symbolByte {i : Nat} (hi : i < a.numAsmSymbols) :
    (symbolByte (slice a.bitsPerSymbol i (hexBits a.asmHex))).toNat = a.asmSymbol i % 256 := by
  have hinside : a.bitsPerSymbol * (i + 1) ≤ a.asmLenBits :=
    le_trans (Nat.mul_le_mul_left _ hi) (Nat.mul_div_le _ _)
  rw [asmSymbol, slice_take _ hinside]
  exact toNat_ofBits _

/-- The configuration with the points of its symbols. -/
def config (hsome : a.numAsmSymbols ≠ 0)
    (points : Fin a.numAsmSymbols → Sample) : SyncConfig Sample where
  asmLenSymbols := a.numAsmSymbols
  asmLenSymbols_pos := Nat.pos_of_ne_zero hsome
  asmSymbols := Vector.ofFn points
  payloadLenSymbols := a.payloadLenBits / a.bitsPerSymbol
  headSymbols := a.headLenBits.tdiv a.bitsPerSymbol
  tailSymbols := a.tailLenBits.tdiv a.bitsPerSymbol

/-- The symbols of the ASM, cut to bytes, have these points. -/
def HasPoints (a : Arguments Sample) (points : Fin a.numAsmSymbols → Sample) : Prop :=
  ∀ i : Fin a.numAsmSymbols, a.constellation.mapToPoints (a.asmSymbol i % 256) = [points i]

theorem mapM_ofFn {α β ε : Type} {n : Nat} {f : α → Except ε β} {x : Fin n → α} {y : Fin n → β}
    (hf : ∀ i, f (x i) = .ok (y i)) : (Vector.ofFn x).mapM f = .ok (Vector.ofFn y) := by
  have hx : Vector.ofFn x = (Vector.ofFn fun i => i).map x := by
    rw [Vector.map_ofFn]
    rfl
  have hy : Vector.ofFn y = (Vector.ofFn fun i => i).map y := by
    rw [Vector.map_ofFn]
    rfl
  have hcomp : f ∘ x = fun i => pure (y i) := funext hf
  rw [hx, Vector.mapM_map, hcomp, Vector.mapM_pure, ← hy]
  rfl

variable {points : Fin a.numAsmSymbols → Sample}

theorem Accepted.build_eq (haccepted : a.Accepted) (heven : a.asmHex.length % 2 = 0)
    (hpoints : a.HasPoints points) :
    a.build = .ok (a.config haccepted.asm_some points) := by
  have hsome := haccepted.asm_some
  have hbits : a.bitsPerSymbol * (a.numAsmSymbols) ≤ 4 * a.asmHex.length := by
    have hhex := haccepted.asm_hex
    have hmul : a.bitsPerSymbol * a.numAsmSymbols ≤ a.asmLenBits := Nat.mul_div_le _ _
    omega
  have hdecode := decodeHexToSymbols_eq heven haccepted.bitsPerSymbol_pos
    (Nat.pos_of_ne_zero hsome) hbits
  have hextract : ∀ i : Fin a.numAsmSymbols,
      Checked.extractSymbol a.constellation
        (symbolByte (slice a.bitsPerSymbol i (hexBits a.asmHex))) = .ok (points i) := by
    intro i
    rw [Checked.extractSymbol, FrameSync.extractSymbol, toNat_symbolByte i.isLt, hpoints i]
    rfl
  refine (dif_neg hsome).trans ?_
  refine (congrArg (fun symbols => Except.bind symbols _) hdecode).trans ?_
  change Except.bind (Vector.mapM _ _) _ = _
  exact (congrArg (fun symbols => Except.bind symbols _) (mapM_ofFn hextract)).trans rfl

theorem Accepted.asmSymbol_lt (haccepted : a.Accepted) {i : Nat}
    (hi : i < a.numAsmSymbols) : a.asmSymbol i < 2 ^ a.bitsPerSymbol := by
  have hinside : a.bitsPerSymbol * (i + 1) ≤ ((hexBits a.asmHex).take a.asmLenBits).length := by
    have hhex := haccepted.asm_hex
    rw [List.length_take, length_hexBits, Nat.min_eq_left (by omega)]
    exact le_trans (Nat.mul_le_mul_left _ hi) (Nat.mul_div_le _ _)
  have hvalue := value_lt (slice a.bitsPerSymbol i ((hexBits a.asmHex).take a.asmLenBits))
  rwa [length_slice hinside] at hvalue

/-- The points of the symbols of the ASM. -/
theorem Accepted.exists_points (haccepted : a.Accepted) (hone : a.constellation.OneDimensional) :
    ∃ points : Fin a.numAsmSymbols → Sample, a.HasPoints points := by
  have hexists : ∀ i : Fin a.numAsmSymbols,
      ∃ point, a.constellation.mapToPoints (a.asmSymbol i % 256) = [point] := by
    intro i
    apply hone.exists_point
    exact lt_of_le_of_lt (Nat.mod_le _ _) (haccepted.asmSymbol_lt i.isLt)
  choose points hpoints using hexists
  exact ⟨points, hpoints⟩

theorem Accepted.outputNumSymbols_iff (haccepted : a.Accepted)
    (points : Fin a.numAsmSymbols → Sample) :
    ((a.config haccepted.asm_some points).outputNumSymbols : Int) =
        (a.payloadLenBits / a.bitsPerSymbol : Nat) + a.headLenBits.tdiv a.bitsPerSymbol +
          a.tailLenBits.tdiv a.bitsPerSymbol ↔
      0 ≤ a.payloadLenBits + a.headLenBits + a.tailLenBits ∧
        a.payloadLenBits + a.headLenBits + a.tailLenBits < size64 * a.bitsPerSymbol := by
  have hpos : (0 : Int) < a.bitsPerSymbol := Int.natCast_pos.mpr haccepted.bitsPerSymbol_pos
  have hpayload : a.payloadLenBits / a.bitsPerSymbol < size64 :=
    lt_of_le_of_lt (Nat.div_le_self _ _) a.payloadLenBits_lt
  have hsum : (a.payloadLenBits + a.headLenBits + a.tailLenBits : Int) =
      ((a.payloadLenBits / a.bitsPerSymbol : Nat) + a.headLenBits.tdiv a.bitsPerSymbol +
        a.tailLenBits.tdiv a.bitsPerSymbol) * a.bitsPerSymbol := by
    rw [add_mul, add_mul, Int.tdiv_mul_cancel haccepted.head, Int.tdiv_mul_cancel haccepted.tail,
      ← Nat.cast_mul, Nat.div_mul_cancel haccepted.payload]
  refine (computeOutputLen_eq_iff hpayload (intMin_le_tdiv a.intMin_le_head _)
    (intMin_le_tdiv a.intMin_le_tail _)).trans ?_
  rw [hsum, mul_nonneg_iff_of_pos_right hpos, mul_lt_mul_iff_of_pos_right hpos]

/-- The configuration is right if its frame has a length and its symbols fit in bytes. -/
theorem Accepted.describes_config_iff (haccepted : a.Accepted)
    (hpoints : a.HasPoints points) :
    a.Describes (a.config haccepted.asm_some points) ↔
      (0 ≤ a.payloadLenBits + a.headLenBits + a.tailLenBits ∧
        a.payloadLenBits + a.headLenBits + a.tailLenBits < size64 * a.bitsPerSymbol) ∧
      ∀ i < a.numAsmSymbols,
        a.constellation.mapToPoints (a.asmSymbol i % 256) =
          a.constellation.mapToPoints (a.asmSymbol i) := by
  rw [← haccepted.outputNumSymbols_iff points]
  constructor
  · intro hdescribes
    refine ⟨hdescribes.output, fun i hi => ?_⟩
    rw [hpoints ⟨i, hi⟩, hdescribes.asm_symbols i hi]
    exact congrArg (fun point => [point]) (Vector.getElem_ofFn hi).symm
  · rintro ⟨houtput, hlow⟩
    exact {
      asm_len := Nat.div_mul_cancel haccepted.asm_len
      asm_symbols := by
        intro i hi
        rw [← hlow i hi, hpoints ⟨i, hi⟩]
        exact congrArg (fun point => [point]) (Vector.getElem_ofFn hi).symm
      payload := Nat.div_mul_cancel haccepted.payload
      head := Int.tdiv_mul_cancel haccepted.head
      tail := Int.tdiv_mul_cancel haccepted.tail
      output := houtput }

theorem build_odd (hsome : a.numAsmSymbols ≠ 0)
    (hodd : a.asmHex.length % 2 ≠ 0) : a.build = .error .assertion := by
  refine (dif_neg hsome).trans ?_
  exact congrArg (fun symbols => Except.bind symbols _) (decodeHexToSymbols_odd hodd _ _)

theorem Accepted.throwsOr_build_iff (haccepted : a.Accepted)
    (hone : a.constellation.OneDimensional) : ThrowsOr a.Describes a.build ↔ a.Complete := by
  by_cases heven : a.asmHex.length % 2 = 0
  · obtain ⟨points, hpoints⟩ := haccepted.exists_points hone
    rw [haccepted.build_eq heven hpoints, throwsOr_ok, haccepted.describes_config_iff hpoints]
    constructor
    · rintro ⟨⟨hnonneg, hlt⟩, hlow⟩
      exact ⟨heven, hnonneg, hlt, hlow⟩
    · intro hcomplete
      exact ⟨⟨hcomplete.output_nonneg, hcomplete.output_lt⟩, hcomplete.low_bytes⟩
  · rw [build_odd haccepted.asm_some heven]
    exact ⟨False.elim, fun hcomplete => heven hcomplete.even_length⟩

/-- Without assertions, `make` returns the same configuration. -/
theorem Accepted.make_eq (haccepted : a.Accepted) (hone : a.constellation.OneDimensional)
    (heven : a.asmHex.length % 2 = 0)
    (hpoints : a.HasPoints points) :
    FrameSync.make a.constellation a.asmHex a.asmLenBits a.payloadLenBits a.headLenBits
      a.tailLenBits = .ok (a.config haccepted.asm_some points) := by
  have hsymbols : (Vector.range (a.numAsmSymbols)).mapM (fun i =>
      FrameSync.extractSymbol a.constellation (decodeHexToBits a.asmHex a.bitsPerSymbol i)) =
        .ok (Vector.ofFn points) := by
    have hrange : Vector.range (a.numAsmSymbols) = Vector.ofFn fun i => i.val := by
      ext i hi
      simp
    rw [hrange]
    apply mapM_ofFn
    intro i
    rw [FrameSync.extractSymbol, decodeHexToBits_eq heven, toNat_symbolByte i.isLt, hpoints i]
  have hfits {n : Nat} (hdvd : a.bitsPerSymbol ∣ n) :
      ¬ (!FrameSync.fitsSymbols n a.bitsPerSymbol) = true := by
    simp [(fitsSymbols_iff n a.bitsPerSymbol).mpr hdvd]
  unfold FrameSync.make
  rw [if_neg (Nat.not_lt_of_le haccepted.asm_hex)]
  refine (if_neg (hfits haccepted.asm_len)).trans ?_
  refine (if_neg (hfits haccepted.payload)).trans ?_
  refine (if_neg (hfits (Int.natCast_dvd.mp haccepted.head))).trans ?_
  refine (if_neg (hfits (Int.natCast_dvd.mp haccepted.tail))).trans ?_
  refine (if_neg (not_not.mpr hone.dimensionality_eq)).trans ?_
  refine (dif_neg haccepted.asm_some).trans ?_
  exact (congrArg (fun symbols => Except.bind symbols _) hsymbols).trans rfl

variable {c : SyncConfig Sample}

/-- The arguments of a configuration that is returned. -/
theorem Accepted.of_result_ok (hone : a.constellation.OneDimensional) (hok : a.result = .ok c) :
    ∃ haccepted : a.Accepted, a.asmHex.length % 2 = 0 ∧
      ∃ points : Fin a.numAsmSymbols → Sample, a.HasPoints points ∧
        c = a.config haccepted.asm_some points := by
  have hsame : ThrowsOr (fun other => c = other) a.result := by
    rw [hok]
    exact rfl
  obtain ⟨hdefined, hbuild⟩ := (a.throwsOr_result_iff hone _).mp hsame
  have haccepted : a.Accepted := by
    by_contra hrejected
    have hthrows : ThrowsOr (fun _ => False) a.result :=
      (a.throwsOr_result_iff hone _).mpr ⟨hdefined, fun haccepted => (hrejected haccepted).elim⟩
    rw [hok] at hthrows
    exact hthrows
  have hconfig := hbuild haccepted
  have heven : a.asmHex.length % 2 = 0 := by
    by_contra hodd
    rw [build_odd haccepted.asm_some hodd] at hconfig
    exact hconfig
  obtain ⟨points, hpoints⟩ := haccepted.exists_points hone
  rw [haccepted.build_eq heven hpoints] at hconfig
  exact ⟨haccepted, heven, points, hpoints, hconfig⟩

/-- A configuration is the one that `make` returns without its assertions. -/
theorem make_eq_of_result_ok (hone : a.constellation.OneDimensional) (hok : a.result = .ok c) :
    FrameSync.make a.constellation a.asmHex a.asmLenBits a.payloadLenBits a.headLenBits
      a.tailLenBits = .ok c := by
  obtain ⟨haccepted, heven, points, hpoints, rfl⟩ := Accepted.of_result_ok hone hok
  exact haccepted.make_eq hone heven hpoints

/-- A symbol of at most eight bits is its lowest byte. -/
theorem Accepted.asmSymbol_mod (haccepted : a.Accepted) (hbits : a.bitsPerSymbol ≤ 8) {i : Nat}
    (hi : i < a.numAsmSymbols) : a.asmSymbol i % 256 = a.asmSymbol i := by
  apply Nat.mod_eq_of_lt
  exact lt_of_lt_of_le (haccepted.asmSymbol_lt hi) (Nat.pow_le_pow_right Nat.two_pos hbits)

end Config

/-- `make` ends with an exception or the described configuration unless its checks reach
an undefined operation, or succeed although the number of digits is odd, the length of
a frame is out of range or a symbol has another point than its lowest byte. -/
theorem meets_iff (hone : a.constellation.OneDimensional) :
    a.Meets ↔ a.ChecksDefined ∧ (a.Accepted → a.Complete) := by
  refine (a.throwsOr_result_iff hone _).trans (and_congr_right fun _ => ?_)
  exact forall_congr' fun haccepted => haccepted.throwsOr_build_iff hone

/-! ## Arguments that are accepted -/

theorem signConstellation_oneDimensional : signConstellation.OneDimensional where
  dimensionality_eq := rfl
  exists_point := fun _ _ => ⟨_, rfl⟩

/-- An ASM of four bytes before a payload. -/
def wholeBytes : Arguments Int where
  constellation := signConstellation
  asmHex := "1ACFFC1D"
  asmLenBits := 32
  payloadLenBits := 1024
  payloadLenBits_lt := by decide
  headLenBits := 0
  intMin_le_head := by decide
  tailLenBits := 0
  intMin_le_tail := by decide

/-- An ASM of three digits. -/
def oddDigits : Arguments Int := { wholeBytes with asmHex := "1AC", asmLenBits := 12 }

/-- A frame that has lost more bits than its payload has. -/
def shortPayload : Arguments Int :=
  { wholeBytes with
    payloadLenBits := 4
    payloadLenBits_lt := by decide
    tailLenBits := -5
    intMin_le_tail := by decide }

theorem meets_wholeBytes : wholeBytes.Meets :=
  (meets_iff wholeBytes signConstellation_oneDimensional).mpr ⟨{
    bits_per_symbol := by decide
    head := by decide
    tail := by decide }, fun haccepted => {
    even_length := by decide
    output_nonneg := by decide
    output_lt := by decide
    low_bytes := fun _ hi => congrArg _ (haccepted.asmSymbol_mod (by decide) hi) }⟩

/-- Three digits fail an assertion, and a frame with fewer than no bits gets a length. -/
theorem oddDigits_shortPayload_not_meet :
    (oddDigits.constellation.OneDimensional ∧ oddDigits.result = .error .assertion ∧
        ¬ oddDigits.Meets) ∧
      (shortPayload.constellation.OneDimensional ∧
        shortPayload.result.toOption.map (fun c => c.outputNumSymbols) = some (2 ^ 64 - 1) ∧
        ¬ shortPayload.Meets) := by
  have hone := signConstellation_oneDimensional
  have hodd : oddDigits.result = .error .assertion := rfl
  have hshort : shortPayload.result.toOption.map (fun c => c.outputNumSymbols) =
      some (2 ^ 64 - 1) := by decide +kernel
  refine ⟨⟨hone, hodd, fun hmeets => ?_⟩, ⟨hone, hshort, fun hmeets => ?_⟩⟩
  · rw [Meets, hodd] at hmeets
    exact hmeets
  · rw [Meets] at hmeets
    cases hresult : shortPayload.result with
    | error failure =>
        rw [hresult] at hshort
        cases hshort
    | ok c =>
        rw [hresult] at hmeets hshort
        have hlength : c.outputNumSymbols = 2 ^ 64 - 1 := Option.some.inj hshort
        have hpayload : c.payloadLenSymbols * 1 = 4 := hmeets.payload
        have hhead : c.headSymbols * 1 = 0 := hmeets.head
        have htail : c.tailSymbols * 1 = -5 := hmeets.tail
        have houtput := hmeets.output
        omega

end Arguments

end GrCcsds.FrameSync
