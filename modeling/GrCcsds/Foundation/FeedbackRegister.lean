import GrCcsds.Foundation.Bits
import Mathlib.Logic.Function.Iterate

/-! # Linear feedback shift registers

A register that shifts towards its most significant bit, which it outputs, and
that takes in the parity of the positions selected by a mask. The output stream
of a register can be continued at any position from the state that it has there.
-/

namespace Foundation.FeedbackRegister

variable {width : Nat}

/-- The parity of the lowest `n` bits of a word. -/
def parity (n : Nat) (word : BitVec width) : Bool :=
  (List.range n).foldl (fun bit j => bit ^^ word.getLsbD j) false

/-- One shift of the register. -/
def shift (poly state : BitVec width) : BitVec width :=
  state <<< 1 ||| (BitVec.ofBool (parity width (state &&& poly))).setWidth width

/-- Bit `i` of the output of a register with a start state. -/
def bit (poly seed : BitVec width) (i : Nat) : Bool := ((shift poly)^[i] seed).msb

/-- The first bits of the output. -/
def bits (poly seed : BitVec width) (count : Nat) : List Bool :=
  (List.range count).map (bit poly seed)

variable (poly seed : BitVec width)

@[simp] theorem length_bits (count : Nat) : (bits poly seed count).length = count := by
  simp [bits]

theorem bit_add (first i : Nat) :
    bit poly seed (first + i) = bit poly ((shift poly)^[first] seed) i := by
  rw [bit, bit, Nat.add_comm, Function.iterate_add_apply]

theorem bits_add (first second : Nat) :
    bits poly seed (first + second) =
      bits poly seed first ++ bits poly ((shift poly)^[first] seed) second := by
  simp only [bits, List.range_add, List.map_append, List.map_map]
  congr 1
  apply List.map_congr_left
  intro i _
  exact bit_add poly seed first i

theorem bits_succ (count : Nat) :
    bits poly seed (count + 1) = bits poly seed count ++ [((shift poly)^[count] seed).msb] := by
  rw [bits_add]
  rfl

end Foundation.FeedbackRegister
