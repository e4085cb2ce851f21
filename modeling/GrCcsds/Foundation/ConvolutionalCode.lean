import Mathlib.Data.List.Basic
import Mathlib.Tactic.Common

/-! # Bit-serial convolutional codes

A generator taps the stages of a shift register, whose first stage holds the
newest bit. The encoder starts with an empty register, reads one bit after the
other and outputs one bit for each generator. A puncturing pattern keeps the
marked positions of a stream and repeats after its last entry. The results here
describe how encoding and puncturing continue over a split of the stream.
-/

namespace Foundation.ConvolutionalCode

/-- The taps of one output, and whether it is inverted. -/
structure Generator where
  tap : Nat → Bool
  inverted : Bool

/-- The parity of the tapped stages among the first ones of a register. Stages
that have not been filled hold a zero. -/
def parity (tap : Nat → Bool) (register : List Bool) : (stages : Nat) → Bool
  | 0 => false
  | stages + 1 =>
    parity tap register stages ^^ (register.getD stages false && tap stages)

/-- The output of a generator for a register that has taken in the newest bit. -/
def Generator.output (g : Generator) (stages : Nat) (register : List Bool) : Bool :=
  parity g.tap register stages ^^ g.inverted

/-- Encode bits one by one. The bits before them are given newest first. -/
def encode (generators : List Generator) (stages : Nat) : (past : List Bool) → List Bool → List Bool
  | _, [] => []
  | past, bit :: rest =>
    generators.map (·.output stages (bit :: past)) ++
      encode generators stages (bit :: past) rest

/-- Keep the positions of a stream that a repeated pattern marks. -/
def puncture (pattern : List Bool) : (phase : Nat) → List Bool → List Bool
  | _, [] => []
  | phase, bit :: rest =>
    (if pattern.getD (phase % pattern.length) false then [bit] else []) ++
      puncture pattern (phase + 1) rest

variable {generators : List Generator} {stages : Nat} {pattern : List Bool}

/-- Encoding continues with the register that the first part leaves. -/
theorem encode_append (past first second : List Bool) :
    encode generators stages past (first ++ second) =
      encode generators stages past first ++
        encode generators stages (first.reverse ++ past) second := by
  induction first generalizing past with
  | nil => rfl
  | cons bit rest ih =>
      rw [List.cons_append, encode, encode, ih, List.append_assoc, List.reverse_cons,
        List.append_assoc]
      rfl

@[simp] theorem length_encode (past bits : List Bool) :
    (encode generators stages past bits).length = generators.length * bits.length := by
  induction bits generalizing past with
  | nil => rfl
  | cons bit rest ih =>
      rw [encode, List.length_append, List.length_map, ih, List.length_cons, Nat.mul_succ,
        Nat.add_comm]

/-- Puncturing continues at the phase that the first part leaves. -/
theorem puncture_append (phase : Nat) (first second : List Bool) :
    puncture pattern phase (first ++ second) =
      puncture pattern phase first ++ puncture pattern (phase + first.length) second := by
  induction first generalizing phase with
  | nil => rfl
  | cons bit rest ih =>
      rw [List.cons_append, puncture, puncture, ih, List.append_assoc, List.length_cons,
        Nat.add_assoc, Nat.add_comm 1]

/-- Whether a position is kept decides what it adds to the punctured stream. -/
theorem puncture_take_succ (phase : Nat) {bits : List Bool} {m : Nat} (hm : m < bits.length) :
    puncture pattern phase (bits.take (m + 1)) = puncture pattern phase (bits.take m) ++
      if pattern.getD ((phase + m) % pattern.length) false then [bits[m]] else [] := by
  rw [List.take_succ_eq_append_getElem hm, puncture_append, List.length_take,
    Nat.min_eq_left (Nat.le_of_lt hm), puncture, puncture, List.append_nil]

/-- A kept bit follows the kept bits before it. -/
theorem getElem?_puncture (phase : Nat) {bits : List Bool} {m : Nat} (hm : m < bits.length)
    (hkeep : pattern.getD ((phase + m) % pattern.length) false = true) :
    (puncture pattern phase bits)[(puncture pattern phase (bits.take m)).length]? =
      some bits[m] := by
  have hsplit : puncture pattern phase bits = puncture pattern phase (bits.take (m + 1)) ++
      puncture pattern (phase + (bits.take (m + 1)).length) (bits.drop (m + 1)) := by
    rw [← puncture_append, List.take_append_drop]
  rw [hsplit, puncture_take_succ phase hm, if_pos hkeep, List.append_assoc,
    List.getElem?_append_right (Nat.le_refl _), Nat.sub_self]
  rfl

/-- Only the position inside the pattern matters. -/
theorem puncture_mod (phase : Nat) (bits : List Bool) :
    puncture pattern (phase % pattern.length) bits = puncture pattern phase bits := by
  induction bits generalizing phase with
  | nil => rfl
  | cons bit rest ih =>
      rw [puncture, puncture, Nat.mod_mod, ← ih (phase + 1), ← ih (phase % pattern.length + 1),
        Nat.mod_add_mod]

/-- A pattern that keeps everything changes nothing. -/
theorem puncture_singleton_true (phase : Nat) (bits : List Bool) :
    puncture [true] phase bits = bits := by
  induction bits generalizing phase with
  | nil => rfl
  | cons bit rest ih =>
      rw [puncture, ih]
      simp [Nat.mod_one]

theorem length_puncture_le (phase : Nat) (bits : List Bool) :
    (puncture pattern phase bits).length ≤ bits.length := by
  induction bits generalizing phase with
  | nil => exact Nat.le_refl _
  | cons bit rest ih =>
      have hrest := ih (phase + 1)
      rw [puncture, List.length_append, List.length_cons]
      split
      · rw [List.length_singleton]
        omega
      · rw [List.length_nil]
        omega

/-- The number of kept bits does not depend on their values. -/
theorem length_puncture_congr (phase : Nat) {first second : List Bool}
    (hlength : first.length = second.length) :
    (puncture pattern phase first).length = (puncture pattern phase second).length := by
  induction first generalizing phase second with
  | nil =>
      rw [List.length_nil] at hlength
      rw [List.eq_nil_of_length_eq_zero hlength.symm]
  | cons bit rest ih =>
      cases second with
      | nil => cases hlength
      | cons other others =>
          rw [puncture, puncture, List.length_append, List.length_append,
            ih _ (Nat.succ.inj hlength)]
          split <;> rfl

end Foundation.ConvolutionalCode
