import GrCcsds.Foundation.Grouping
import GrCcsds.FrameSync.Make

/-! # The hex decoder

`decode_hex_to_bits` with its assertions and with the writes of `unpack_bytes`
to its result. It reads the bits of the string one after the other, the highest
bit of a digit first.
-/

namespace GrCcsds.FrameSync

open Foundation Foundation.Bits ConvDecode

/-- What ends a function other than its `return` statements. -/
inductive Failure where
  | thrown (e : Exception)
  | assertion
  | undefined
deriving DecidableEq, Repr

/-- The variables of `unpack_bytes`. -/
structure Unpacker (numSymbolsTotal : Nat) where
  numBitsCollected : Nat
  numSymbolsCollected : Nat
  unpackedBytes : Vector UInt8 numSymbolsTotal
  tmp : UInt8

/-- How an iteration of the loops ends. -/
inductive Control (numSymbolsTotal : Nat) where
  | next (u : Unpacker numSymbolsTotal)
  | returned (unpackedBytes : Vector UInt8 numSymbolsTotal)

variable {num : Nat}

/-- Go on unless the function has returned. -/
def Control.follow (rest : Unpacker num → Except Failure (Control num)) :
    Control num → Except Failure (Control num)
  | .next u => rest u
  | .returned unpackedBytes => .ok (.returned unpackedBytes)

/-- The body of the inner loop after a bit has been read. -/
def collectBit (numBitsPerSymbol : Nat) (bit : UInt8) (u : Unpacker num) :
    Except Failure (Control num) :=
  let tmp := u.tmp <<< 1 ||| bit
  let numBitsCollected := u.numBitsCollected + 1
  if numBitsCollected ≥ numBitsPerSymbol then
    if hinside : u.numSymbolsCollected < num then
      let unpackedBytes := u.unpackedBytes.set u.numSymbolsCollected tmp
      let numSymbolsCollected := u.numSymbolsCollected + 1
      if numSymbolsCollected = num then .ok (.returned unpackedBytes)
      else .ok (.next { numBitsCollected := 0, numSymbolsCollected, unpackedBytes, tmp := 0 })
    -- A write behind the end of the result.
    else .error .undefined
  else .ok (.next { u with numBitsCollected, tmp })

/-- The inner loop, with the number of bits that are left to read from the byte. -/
def unpackByte (numBitsPerSymbol : Nat) (byte : UInt8) :
    (numBitsLeft : Nat) → Unpacker num → Except Failure (Control num)
  | 0, u => .ok (.next u)
  | numBitsLeft + 1, u =>
    (collectBit numBitsPerSymbol (byte >>> UInt8.ofNat numBitsLeft &&& 0x01) u).bind
      (Control.follow (unpackByte numBitsPerSymbol byte numBitsLeft))

/-- The outer loop. -/
def unpackLoop (numBitsPerSymbol : Nat) :
    (bytes : List UInt8) → Unpacker num → Except Failure (Control num)
  | [], u => .ok (.next u)
  | byte :: bytes, u =>
    (unpackByte numBitsPerSymbol byte 8 u).bind
      (Control.follow (unpackLoop numBitsPerSymbol bytes))

def unpackBytes (bytes : List UInt8) (numBitsPerSymbol numSymbolsTotal : Nat) :
    Except Failure (Vector UInt8 numSymbolsTotal) :=
  (unpackLoop numBitsPerSymbol bytes
    { numBitsCollected := 0
      numSymbolsCollected := 0
      unpackedBytes := Vector.replicate numSymbolsTotal 0
      tmp := 0 }).bind fun
    | .returned unpackedBytes => .ok unpackedBytes
    | .next _ => .error .assertion

def decodeHex (hex : String) : Except Failure (List UInt8) :=
  if hex.length % 2 = 0 then .ok (hexBytes hex.toList) else .error .assertion

/-- `decode_hex_to_bits` with its assertions. -/
def decodeHexToSymbols (hex : String) (numBitsPerSymbol numSymbols : Nat) :
    Except Failure (Vector UInt8 numSymbols) :=
  (decodeHex hex).bind fun bytes =>
    if numSymbols * numBitsPerSymbol ≤ bytes.length * 8 then
      unpackBytes bytes numBitsPerSymbol numSymbols
    else .error .assertion

/-! ## The loops over the bits -/

/-- The two loops as one over the bits of all bytes. -/
def collectBits (numBitsPerSymbol : Nat) :
    (bits : List Bool) → Unpacker num → Except Failure (Control num)
  | [], u => .ok (.next u)
  | bit :: bits, u =>
    (collectBit numBitsPerSymbol (UInt8.ofBitVec ((BitVec.ofBool bit).setWidth 8)) u).bind
      (Control.follow (collectBits numBitsPerSymbol bits))

theorem collectBits_append (k : Nat) (front back : List Bool) (u : Unpacker num) :
    collectBits k (front ++ back) u =
      (collectBits k front u).bind (Control.follow (collectBits k back)) := by
  induction front generalizing u with
  | nil => rfl
  | cons bit front ih =>
      rw [List.cons_append, collectBits, collectBits]
      cases collectBit k (UInt8.ofBitVec ((BitVec.ofBool bit).setWidth 8)) u with
      | error failure => rfl
      | ok control =>
          cases control with
          | next v => exact ih v
          | returned unpackedBytes => rfl

/-- The bit that the inner loop extracts. -/
theorem shift_and_one (byte : UInt8) {i : Nat} (hi : i < 8) :
    byte >>> UInt8.ofNat i &&& 0x01 =
      UInt8.ofBitVec ((BitVec.ofBool (byte.toBitVec.getLsbD i)).setWidth 8) := by
  apply UInt8.toBitVec_inj.mp
  have hamount : (BitVec.ofNat 8 i % 8#8).toNat = i := by simp [Nat.mod_eq_of_lt hi]
  change (byte.toBitVec >>> (BitVec.ofNat 8 i % 8#8).toNat) &&& 1#8 = _
  rw [hamount, shiftRight_and_one]

theorem unpackByte_eq (k : Nat) (byte : UInt8) {n : Nat} (hn : n ≤ 8) (u : Unpacker num) :
    unpackByte k byte n u = collectBits k (low n byte.toBitVec) u := by
  induction n generalizing u with
  | zero => rfl
  | succ n ih =>
      have hrest : (unpackByte k byte n : Unpacker num → _) = collectBits k (low n byte.toBitVec) :=
        funext (ih (Nat.le_of_succ_le hn))
      rw [unpackByte, low, collectBits, shift_and_one byte hn, hrest]

theorem unpackLoop_eq (k : Nat) (bytes : List UInt8) (u : Unpacker num) :
    unpackLoop k bytes u = collectBits k (ofBytes bytes) u := by
  induction bytes generalizing u with
  | nil => rfl
  | cons byte bytes ih =>
      have hrest : (unpackLoop k bytes : Unpacker num → _) = collectBits k (ofBytes bytes) :=
        funext ih
      rw [unpackLoop, ofBytes_cons, collectBits_append, unpackByte_eq k byte le_rfl, hrest]

/-! ## The symbols -/

/-- The byte that is left of the bits of a symbol. -/
def symbolByte (bits : List Bool) : UInt8 := UInt8.ofBitVec (ofBits bits)

theorem symbolByte_append_singleton (bits : List Bool) (bit : Bool) :
    symbolByte bits <<< 1 ||| UInt8.ofBitVec ((BitVec.ofBool bit).setWidth 8) =
      symbolByte (bits ++ [bit]) := by
  apply UInt8.toBitVec_inj.mp
  change ofBits bits <<< (1#8 % 8#8) ||| _ = ofBits (bits ++ [bit])
  rw [ofBits_append_singleton]
  rfl

/-- The variables between two symbols, and after some bits of a symbol. -/
def between (collected : Nat) (unpackedBytes : Vector UInt8 num) (bits : List Bool) :
    Unpacker num :=
  { numBitsCollected := bits.length
    numSymbolsCollected := collected
    unpackedBytes
    tmp := symbolByte bits }

variable {k collected : Nat} {unpackedBytes : Vector UInt8 num}

/-- Fewer bits than a symbol has are only collected. -/
theorem collectBits_partial {bits : List Bool} (hshort : bits.length < k) :
    collectBits k bits (between collected unpackedBytes []) =
      .ok (.next (between collected unpackedBytes bits)) := by
  induction bits using List.reverseRecOn with
  | nil => rfl
  | append_singleton front last ih =>
      rw [List.length_append, List.length_singleton] at hshort
      have hless : ¬ (front.length + 1 ≥ k) := Nat.not_le_of_lt hshort
      rw [collectBits_append, ih (Nat.lt_of_succ_lt hshort)]
      simp only [Except.bind, Control.follow, collectBits, collectBit, between, if_neg hless,
        symbolByte_append_singleton, List.length_append, List.length_singleton]

/-- The last bit of a symbol writes it. -/
theorem collectBits_symbol {bits : List Bool} (hk : 0 < k) (hbits : bits.length = k)
    (hinside : collected < num) :
    collectBits k bits (between collected unpackedBytes []) =
      .ok (if collected + 1 = num then
          .returned (unpackedBytes.set collected (symbolByte bits))
        else .next
          (between (collected + 1) (unpackedBytes.set collected (symbolByte bits)) [])) := by
  cases bits using List.reverseRecOn with
  | nil => exact absurd hbits hk.ne
  | append_singleton front last =>
      rw [List.length_append, List.length_singleton] at hbits
      have hlast : front.length + 1 ≥ k := Nat.le_of_eq hbits.symm
      rw [collectBits_append, collectBits_partial (Nat.lt_of_succ_le (Nat.le_of_eq hbits))]
      simp only [Except.bind, Control.follow, collectBits, collectBit, between, if_pos hlast,
        dif_pos hinside, symbolByte_append_singleton]
      by_cases hfull : collected + 1 = num
      · rw [if_pos hfull, if_pos hfull]
      · rw [if_neg hfull, if_neg hfull]
        rfl

/-- A symbol is the next piece of the bits. -/
theorem collectBits_slice {bits : List Bool} (hk : 0 < k) (hbits : k * num ≤ bits.length)
    (hinside : collected < num) :
    collectBits k (bits.drop (k * collected)) (between collected unpackedBytes []) =
      Control.follow (collectBits k (bits.drop (k * (collected + 1))))
        (if collected + 1 = num then
          .returned (unpackedBytes.set collected (symbolByte (slice k collected bits)))
        else .next (between (collected + 1)
          (unpackedBytes.set collected (symbolByte (slice k collected bits))) [])) := by
  have hslice : (slice k collected bits).length = k :=
    length_slice (le_trans (Nat.mul_le_mul_left k hinside) hbits)
  have hsplit : bits.drop (k * collected) =
      slice k collected bits ++ bits.drop (k * (collected + 1)) := by
    rw [slice, Nat.mul_succ, ← List.drop_drop, List.take_append_drop]
  rw [hsplit, collectBits_append, collectBits_symbol hk hslice hinside]
  rfl

theorem getElem_set_slice {bits : List Bool} (hinside : collected < num)
    (hwritten : ∀ i (hi : i < collected), unpackedBytes[i] = symbolByte (slice k i bits))
    (i : Nat) (hi : i < collected + 1) :
    (unpackedBytes.set collected (symbolByte (slice k collected bits)))[i] =
      symbolByte (slice k i bits) := by
  rw [Vector.getElem_set]
  split
  next heq => rw [heq]
  next hne => exact hwritten i (Nat.lt_of_le_of_ne (Nat.le_of_lt_succ hi) (Ne.symm hne))

/-- The symbols that are left are written one by one until the result is full. -/
theorem collectBits_slices {bits : List Bool} (hk : 0 < k) (hbits : k * num ≤ bits.length)
    {left : Nat} (hleft : collected + (left + 1) = num)
    (hwritten : ∀ i (hi : i < collected), unpackedBytes[i] = symbolByte (slice k i bits)) :
    collectBits k (bits.drop (k * collected)) (between collected unpackedBytes []) =
      .ok (.returned (Vector.ofFn fun i => symbolByte (slice k i bits))) := by
  induction left generalizing collected unpackedBytes with
  | zero =>
      have hinside : collected < num := by omega
      rw [collectBits_slice hk hbits hinside, if_pos hleft]
      apply congrArg (fun symbols => Except.ok (Control.returned symbols))
      ext i hi
      rw [getElem_set_slice hinside hwritten i (by omega), Vector.getElem_ofFn]
  | succ left ih =>
      have hinside : collected < num := by omega
      rw [collectBits_slice hk hbits hinside, if_neg (by omega)]
      exact ih (by omega) (getElem_set_slice hinside hwritten)

/-- The symbols are the pieces of the bits, in their order. -/
theorem unpackBytes_eq {bytes : List UInt8} (hk : 0 < k) (hnum : 0 < num)
    (hbytes : k * num ≤ 8 * bytes.length) :
    unpackBytes bytes k num =
      .ok (Vector.ofFn fun i : Fin num => symbolByte (slice k i (ofBytes bytes))) := by
  have hbits : k * num ≤ (ofBytes bytes).length := by
    rw [length_ofBytes]
    exact hbytes
  have hleft : 0 + (num - 1 + 1) = num := by omega
  have hloop : collectBits k (ofBytes bytes) (between 0 (Vector.replicate num 0) []) =
      .ok (.returned (Vector.ofFn fun i => symbolByte (slice k i (ofBytes bytes)))) :=
    collectBits_slices hk hbits hleft fun i hi => absurd hi (Nat.not_lt_zero i)
  have hunpack := unpackLoop_eq k bytes (between 0 (Vector.replicate num 0) [])
  rw [hloop] at hunpack
  change (unpackLoop k bytes (between 0 (Vector.replicate num 0) [])).bind _ = _
  rw [hunpack]
  rfl

/-- Symbols of at most eight bits are the numbers with these bits. -/
theorem unpackBytes_slices {bytes : List UInt8} (hk : 1 ≤ k) (hbyte : k ≤ 8) (hnum : 1 ≤ num)
    (hbytes : num * k ≤ 8 * bytes.length) :
    ∃ symbols : Vector UInt8 num, unpackBytes bytes k num = .ok symbols ∧
      ∀ s (hs : s < num), symbols[s].toNat = value (slice k s (ofBytes bytes)) := by
  rw [Nat.mul_comm] at hbytes
  refine ⟨_, unpackBytes_eq hk hnum hbytes, fun s hs => ?_⟩
  have hslice : (slice k s (ofBytes bytes)).length = k := by
    apply length_slice
    rw [length_ofBytes]
    exact (Nat.mul_le_mul_left k hs).trans hbytes
  have hvalue : value (slice k s (ofBytes bytes)) < 2 ^ 8 := by
    have hlt := value_lt (slice k s (ofBytes bytes))
    rw [hslice] at hlt
    exact hlt.trans_le (Nat.pow_le_pow_right Nat.two_pos hbyte)
  rw [Vector.getElem_ofFn]
  exact (toNat_ofBits _).trans (Nat.mod_eq_of_lt hvalue)

/-- Symbols of three bits, two of them across the border of two bytes. -/
theorem unpackBytes_slices_three :
    ∃ symbols : Vector UInt8 5, unpackBytes [0x1A, 0xCF] 3 5 = .ok symbols ∧
      ∀ s (hs : s < 5), symbols[s].toNat = value (slice 3 s (ofBytes [0x1A, 0xCF])) :=
  unpackBytes_slices (by decide) (by decide) (by decide) (by decide)

/-! ## The digits -/

/-- The bits of a string of hexadecimal digits. -/
def hexBits (hex : String) : List Bool :=
  hex.toList.flatMap fun digit => low 4 (hex2bin digit).toBitVec

theorem toNat_hex2bin_lt (digit : Char) : (hex2bin digit).toNat < 16 := by
  have hbyte {n : Nat} (hn : n < 16) : (UInt8.ofNat n).toNat < 16 := by
    rw [UInt8.toNat_ofNat']
    exact lt_of_le_of_lt (Nat.mod_le _ _) hn
  have hle {first second : Char} (hle : first ≤ second) : first.toNat ≤ second.toNat := hle
  unfold hex2bin
  split
  next hdigit =>
    have hlast : digit.toNat ≤ 57 := hle hdigit.2
    apply hbyte
    change digit.toNat - 48 < 16
    omega
  next =>
    split
    next hdigit =>
      have hlast : digit.toNat ≤ 70 := hle hdigit.2
      apply hbyte
      change digit.toNat - 65 + 10 < 16
      omega
    next =>
      split
      next hdigit =>
        have hlast : digit.toNat ≤ 102 := hle hdigit.2
        apply hbyte
        change digit.toNat - 97 + 10 < 16
        omega
      next => exact Nat.succ_pos 15

theorem getLsbD_hex2bin (digit : Char) {i : Nat} (hi : 4 ≤ i) :
    (hex2bin digit).toBitVec.getLsbD i = false := by
  apply Nat.testBit_lt_two_pow
  exact lt_of_lt_of_le (toNat_hex2bin_lt digit) (Nat.pow_le_pow_right Nat.two_pos hi)

theorem ofBytes_hexBytes {digits : List Char} (heven : digits.length % 2 = 0) :
    ofBytes (hexBytes digits) = digits.flatMap fun digit => low 4 (hex2bin digit).toBitVec := by
  induction digits using hexBytes.induct with
  | case1 first second rest ih =>
      have hrest : rest.length % 2 = 0 := by
        rw [List.length_cons, List.length_cons] at heven
        omega
      rw [hexBytes, ofBytes_cons, ih hrest, List.flatMap_cons, List.flatMap_cons,
        ← List.append_assoc]
      congr 1
      exact low_append (hex2bin first).toBitVec (hex2bin second).toBitVec le_rfl fun i hi =>
        getLsbD_hex2bin second hi
  | case2 digits hshort =>
      match digits with
      | [] => rfl
      | [_] => cases heven
      | first :: second :: rest => exact absurd rfl (hshort first second rest)

theorem decodeHex_eq {hex : String} (heven : hex.length % 2 = 0) :
    ∃ bytes, decodeHex hex = .ok bytes ∧ ofBytes bytes = hexBits hex := by
  refine ⟨hexBytes hex.toList, if_pos heven, ofBytes_hexBytes ?_⟩
  rwa [String.length_toList]

@[simp] theorem length_hexBits (hex : String) : (hexBits hex).length = 4 * hex.length := by
  have hlength := Grouping.length_flatMap_blocks
    (fun digit => length_low 4 (hex2bin digit).toBitVec) hex.toList
  rwa [String.length_toList] at hlength

/-- A string of even length with enough digits is decoded. -/
theorem decodeHexToSymbols_eq {hex : String} {k num : Nat} (heven : hex.length % 2 = 0)
    (hk : 0 < k) (hnum : 0 < num) (hbits : k * num ≤ 4 * hex.length) :
    decodeHexToSymbols hex k num =
      .ok (Vector.ofFn fun i : Fin num => symbolByte (slice k i (hexBits hex))) := by
  obtain ⟨bytes, hdecode, hbytes⟩ := decodeHex_eq heven
  have hlength := congrArg List.length hbytes
  rw [length_ofBytes, length_hexBits] at hlength
  have henough : num * k ≤ bytes.length * 8 := by
    rw [Nat.mul_comm num, Nat.mul_comm bytes.length]
    omega
  rw [decodeHexToSymbols, hdecode, ← hbytes, ← unpackBytes_eq hk hnum (by omega)]
  exact if_pos henough

/-- The symbols of the decoder without assertions. -/
theorem decodeHexToBits_eq {hex : String} (heven : hex.length % 2 = 0) (k i : Nat) :
    decodeHexToBits hex k i = (symbolByte (slice k i (hexBits hex))).toNat := by
  have hfold : ∀ bits : List Bool,
      bits.foldl (fun tmp bit => (tmp <<< 1) % 256 ||| bit.toNat) 0 = (ofBits bits).toNat := by
    intro bits
    induction bits using List.reverseRecOn with
    | nil => rfl
    | append_singleton front last ih =>
        have hbit : ((BitVec.ofBool last).setWidth 8).toNat = last.toNat := by
          cases last <;> rfl
        rw [ofBits_append_singleton, BitVec.toNat_or, BitVec.toNat_shiftLeft, hbit, ← ih,
          List.foldl_append]
        rfl
  have hlength : hex.toList.length % 2 = 0 := by rwa [String.length_toList]
  rw [decodeHexToBits, hfold, ofBytes_hexBytes hlength]
  rfl

/-- A string of odd length fails an assertion. -/
theorem decodeHexToSymbols_odd {hex : String} (hodd : hex.length % 2 ≠ 0) (k num : Nat) :
    decodeHexToSymbols hex k num = .error .assertion := by
  rw [decodeHexToSymbols, decodeHex, if_neg hodd]
  rfl

end GrCcsds.FrameSync
