import GrCcsds.Converters.Blocks
import GrCcsds.Foundation.Bits
import Mathlib.Data.List.Basic

/-! # The bytes that the converters assemble

Shifting bits in, combining them at their positions and masking them first all
lead to the byte with these bits. The converter with the narrow index reads
again from the start behind 2 ^ 32 soft bits.
-/

namespace GrCcsds.Converters

open Utils Messages Softbits
open Foundation Foundation.Bits CountingLoop

/-- A bit as a byte. -/
def bitByte (bit : Bool) : UInt8 := if bit then 1 else 0

/-- The lowest bit of a byte. -/
def lowBit (byte : UInt8) : Bool := byte.toBitVec.getLsbD 0

section Assemble

theorem or_shifted_eq_byteOf (bit : Nat → Bool) :
    (List.range 8).foldl (fun (byte : UInt8) j =>
      byte ||| UInt8.ofNat ((if bit j then 1 else 0) <<< (7 - j))) 0 = byteOf bit := by
  have hall : ∀ b0 b1 b2 b3 b4 b5 b6 b7 : Bool,
      [(b0, 7), (b1, 6), (b2, 5), (b3, 4), (b4, 3), (b5, 2), (b6, 1), (b7, 0)].foldl
        (fun (byte : UInt8) (b : Bool × Nat) =>
          byte ||| UInt8.ofNat ((if b.1 then 1 else 0) <<< b.2)) 0 =
        UInt8.ofBitVec (ofBits [b0, b1, b2, b3, b4, b5, b6, b7]) := by
    decide +kernel
  exact hall (bit 0) (bit 1) (bit 2) (bit 3) (bit 4) (bit 5) (bit 6) (bit 7)

theorem shifted_in_eq_byteOf (bit : Nat → Bool) :
    (List.range 8).foldl (fun (byte : UInt8) j => byte <<< 1 ||| bitByte (bit j)) 0 =
      byteOf bit := by
  have hall : ∀ b0 b1 b2 b3 b4 b5 b6 b7 : Bool,
      [b0, b1, b2, b3, b4, b5, b6, b7].foldl
        (fun (byte : UInt8) bit => byte <<< 1 ||| bitByte bit) 0 =
        UInt8.ofBitVec (ofBits [b0, b1, b2, b3, b4, b5, b6, b7]) := by
    decide +kernel
  exact hall (bit 0) (bit 1) (bit 2) (bit 3) (bit 4) (bit 5) (bit 6) (bit 7)

theorem and_one_eq_bitByte (byte : UInt8) : byte &&& 0x01 = bitByte (lowBit byte) := by
  apply UInt8.toBitVec_inj.mp
  have hword := shiftRight_and_one byte.toBitVec 0
  rw [BitVec.ushiftRight_zero] at hword
  unfold bitByte lowBit
  cases hlow : byte.toBitVec.getLsbD 0
  · rw [hlow] at hword
    exact hword
  · rw [hlow] at hword
    exact hword

theorem combineBits_eq_byteOf (bit : Nat → UInt8) :
    PackBits.combineBits (bit 0) (bit 1) (bit 2) (bit 3) (bit 4) (bit 5) (bit 6) (bit 7) =
      byteOf fun j => lowBit (bit j) := by
  have hall : ∀ b0 b1 b2 b3 b4 b5 b6 b7 : Bool,
      bitByte b0 <<< 7 ||| bitByte b1 <<< 6 ||| bitByte b2 <<< 5 ||| bitByte b3 <<< 4 |||
        bitByte b4 <<< 3 ||| bitByte b5 <<< 2 ||| bitByte b6 <<< 1 ||| bitByte b7 <<< 0 =
        UInt8.ofBitVec (ofBits [b0, b1, b2, b3, b4, b5, b6, b7]) := by
    decide +kernel
  simp only [PackBits.combineBits, and_one_eq_bitByte]
  exact hall _ _ _ _ _ _ _ _

end Assemble

/-- Reading the first elements of an array by their indices. -/
theorem map_range_getD {α β : Type} {l : List α} {count : Nat} (hcount : count ≤ l.length)
    (default : α) (f : α → β) :
    (List.range count).map (fun i => f (l[i]?.getD default)) = (l.take count).map f := by
  apply List.ext_getElem
  · simp [hcount]
  · intro i hi _
    rw [List.length_map, List.length_range] at hi
    simp [hi.trans_le hcount]

/-- The bits at the positions that a counter with 2 ^ 32 values finds. -/
def wrapped (bits : List Bool) : List Bool :=
  (List.range bits.length).map fun k => bits[k % size32]?.getD false

@[simp] theorem length_wrapped (bits : List Bool) : (wrapped bits).length = bits.length := by
  simp [wrapped]

/-- Every bit is that of its position modulo 2 ^ 32. -/
theorem wrapped_eq_iff (bits : List Bool) :
    wrapped bits = bits ↔ ∀ k < bits.length, bits[k]? = bits[k % size32]? := by
  have hmod {k : Nat} (hk : k < bits.length) : k % size32 < bits.length :=
    (Nat.mod_le _ _).trans_lt hk
  constructor
  · intro heq k hk
    have hwrapped : (wrapped bits)[k]? = some (bits[k % size32]?.getD false) := by
      simp [wrapped, hk]
    rw [heq] at hwrapped
    rw [hwrapped, List.getElem?_eq_getElem (hmod hk)]
    rfl
  · intro hall
    apply List.ext_getElem?
    intro k
    rcases Nat.lt_or_ge k bits.length with hk | hk
    · have hread : (wrapped bits)[k]? = some (bits[k % size32]?.getD false) := by
        simp [wrapped, hk]
      rw [hread, hall k hk, List.getElem?_eq_getElem (hmod hk)]
      rfl
    · rw [List.getElem?_eq_none hk, List.getElem?_eq_none (by rwa [length_wrapped])]

section Values

variable {R : Type} [Arithmetic R] {values : List R}

theorem hardDecision_getD {k : Nat} (hk : k < values.length) :
    (values.map hardDecision)[k]?.getD false = hardDecision (softbit values k) := by
  simp [softbit, hk]

theorem SoftToHard.map_byteValue (values : List R) :
    (List.range (values.length / 8)).map (byteValue values) =
      toBytes (values.map hardDecision) := by
  rw [toBytes_eq_map, List.length_map]
  apply List.map_congr_left
  intro i hi
  have hlt := List.mem_range.mp hi
  rw [byteValue, or_shifted_eq_byteOf fun j => hardDecision (softbit values (8 * i + j))]
  apply byteOf_congr
  intro j hj
  rw [hardDecision_getD (by omega)]

theorem MsgToBytes.map_byteValue (values : List R) :
    (List.range (values.length / 8)).map (byteValue values) =
      toBytes (wrapped (values.map hardDecision)) := by
  rw [toBytes_eq_map, length_wrapped, List.length_map]
  apply List.map_congr_left
  intro i hi
  have hlt := List.mem_range.mp hi
  have hbit : ∀ j ∈ List.range 8, bit values i j =
      bitByte ((wrapped (values.map hardDecision))[8 * i + j]?.getD false) := by
    intro j hj
    have hinside : 8 * i + j < values.length := by
      have hlow := List.mem_range.mp hj
      omega
    have hindex : (8 * i + j) % size32 < values.length := (Nat.mod_le _ _).trans_lt hinside
    have hread : (wrapped (values.map hardDecision))[8 * i + j]?.getD false =
        (values.map hardDecision)[(8 * i + j) % size32]?.getD false := by
      simp [wrapped, hinside]
    rw [hread, hardDecision_getD hindex, bit]
    exact if_pos hindex
  rw [← shifted_in_eq_byteOf, byteValue]
  exact List.foldl_ext _ _ _ fun byte j hj => by rw [hbit j hj]

theorem SoftbitToBit.work_eq {noutputItems : Nat} (hinside : noutputItems ≤ values.length) :
    work (softbit values) noutputItems = (values.take noutputItems).map hardDecisionByte :=
  map_range_getD hinside 0 hardDecisionByte

end Values

theorem lowBit_hardDecisionByte {R : Type} [Arithmetic R] (llrOne : R) :
    lowBit (hardDecisionByte llrOne) = hardDecision llrOne := by
  unfold hardDecisionByte
  cases hardDecision llrOne <;> rfl

/-- Packing a part of the bits gives whole bytes of them. -/
theorem PackBits.work_eq {bits : List UInt8} {noutputItems : Nat}
    (hinside : 8 * noutputItems ≤ bits.length) :
    work (fun i => bits[i]?.getD 0) noutputItems =
      toBytes ((bits.take (8 * noutputItems)).map lowBit) := by
  have hcount : ((bits.take (8 * noutputItems)).map lowBit).length / 8 = noutputItems := by
    rw [List.length_map, List.length_take, Nat.min_eq_left hinside,
      Nat.mul_div_cancel_left _ (Nat.succ_pos 7)]
  rw [toBytes_eq_map, hcount]
  apply List.map_congr_left
  intro i hi
  have hlt := List.mem_range.mp hi
  refine (combineBits_eq_byteOf fun j => bits[i * 8 + j]?.getD 0).trans (byteOf_congr ?_)
  intro j hj
  have hbefore : 8 * i + j < 8 * noutputItems := by omega
  have hbit : 8 * i + j < bits.length := by omega
  simp [Nat.mul_comm i 8, hbefore, hbit]

end GrCcsds.Converters
