import Mathlib.Data.Rat.Floor
import Mathlib.Tactic.NormNum
import GrCcsds.Randomiser.Output

/-! # The two randomisers agree

The hard decisions of randomised soft bits are the randomised hard decisions:
both handlers start the register at the seed for every message and combine bit
after bit with its output. Combining twice gives the message back.
-/

namespace GrCcsds.Randomiser

open Utils Messages Softbits
open Foundation
open FeedbackRegister (shift bit bits)

namespace Hard

variable (c : Config) (bytes : List UInt8)

theorem randomised_randomised : randomised c (randomised c bytes) = bytes := by
  apply List.ext_getElem
  · simp
  · intro p _ _
    simp only [randomised, List.getElem_mapIdx]
    rw [UInt8.xor_assoc, UInt8.xor_self, UInt8.xor_zero]

theorem low_keyByte (poly seed : BitVec 8) :
    Bits.low 8 (keyByte poly seed 0).toBitVec = bits poly seed 8 := low_getNextByte poly seed

theorem keyByte_succ (poly seed : BitVec 8) (p : Nat) :
    keyByte poly seed (p + 1) = keyByte poly ((shift poly)^[8] seed) p := by
  rw [keyByte, keyByte, Nat.mul_succ, Function.iterate_add_apply]

/-- The bits of randomised bytes are combined with the output of the register. -/
theorem ofBytes_randomised :
    Bits.ofBytes (randomised c bytes) =
      List.zipWith (· ^^ ·) (Bits.ofBytes bytes) (bits c.poly c.seed (8 * bytes.length)) := by
  obtain ⟨poly, seed⟩ := c
  induction bytes generalizing seed with
  | nil => rfl
  | cons x rest ih =>
      have hrest : randomised ⟨poly, seed⟩ (x :: rest) =
          (x ^^^ keyByte poly seed 0) :: randomised ⟨poly, (shift poly)^[8] seed⟩ rest := by
        simp only [randomised, List.mapIdx_cons, keyByte_succ]
      rw [hrest, Bits.ofBytes_cons, ih, Bits.ofBytes_cons, List.length_cons, Nat.mul_succ,
        Nat.add_comm, FeedbackRegister.bits_add, List.zipWith_append (by simp),
        UInt8.toBitVec_xor, Bits.low_xor, low_keyByte]

end Hard

variable {K : Type} [Field K] [LinearOrder K] [IsStrictOrderedRing K] [FloorRing K]

open scoped ExactNumbers

namespace Soft

variable (c : Config) (values : List K)

omit [IsStrictOrderedRing K] in
theorem sign_mul_sign (b : Bool) : (sign b : K) * sign b = 1 := by
  cases b <;> simp [sign]

omit [IsStrictOrderedRing K] in
theorem flipped_flipped : flipped c (flipped c values) = values := by
  apply List.ext_getElem
  · simp
  · intro i _ _
    simp [flipped, sign_mul_sign]

omit [IsStrictOrderedRing K] in
theorem abs_flipped : (flipped c values).map abs = values.map abs := by
  have habs : ∀ (x : K) (b : Bool), |x * sign b| = |x| := by
    intro x b
    cases b <;> simp [sign]
  apply List.ext_getElem
  · simp
  · intro i _ _
    simp [flipped, habs]

/-- A change of the sign is a change of the hard decision, except at zero. -/
theorem hardDecision_mul_sign {x : K} (hx : x ≠ 0) (b : Bool) :
    hardDecision (x * sign b) = (hardDecision x ^^ b) := by
  unfold hardDecision
  rcases lt_or_gt_of_ne hx with hneg | hpos
  · cases b <;> simp [sign, hneg, hneg.le, not_le_of_gt]
  · cases b <;> simp [sign, hpos, hpos.le, not_le_of_gt]

theorem hardDecision_flipped (hvalues : ∀ x ∈ values, x ≠ 0) :
    (flipped c values).map hardDecision =
      List.zipWith (· ^^ ·) (values.map hardDecision) (bits c.poly c.seed values.length) := by
  apply List.ext_getElem
  · simp
  · intro i hi _
    have hlt : i < values.length := by simpa using hi
    simp [flipped, bits, hardDecision_mul_sign (hvalues _ (List.getElem_mem hlt))]

end Soft

section Messages

variable {Other : Type} (header : Header Other)

/-- The hard decisions of soft bits in bytes, the first one on top. -/
def packed (values : List K) : List UInt8 := Bits.toBytes (values.map hardDecision)

def softbits (values : List K) : Message Other K := .pair (some header) (.f32vector values)

def hardBits (bytes : List UInt8) : Message Other K := .pair (some header) (.blob bytes)

/-- Whatever messages have brought the blocks to the states that they are in, they publish
messages with the same hard decisions, the magnitudes stay, and a second pass gives back what
the first one was given. -/
def Agree (c : Config) (values : List K) : Prop :=
  ∀ soft hard softAgain hardAgain : Members, ∃ (out : List K) (bytes : List UInt8),
    Publishes (Soft.process c) soft (softbits header values) (softbits header out) ∧
      Publishes (Hard.process c) hard (hardBits header (packed values) : Message Other K)
        (hardBits header bytes) ∧
      packed out = bytes ∧ out.map abs = values.map abs ∧
      Publishes (Soft.process c) softAgain (softbits header out) (softbits header values) ∧
      Publishes (Hard.process c) hardAgain (hardBits header bytes : Message Other K)
        (hardBits header (packed values))

variable {c : Config} {values : List K}

omit [IsStrictOrderedRing K] in
theorem length_packed (values : List K) : (packed values).length = values.length / 8 := by
  simp [packed, Bits.toBytes]

theorem packed_flipped (hbytes : 8 ∣ values.length) (hvalues : ∀ x ∈ values, x ≠ 0) :
    packed (Soft.flipped c values) = Hard.randomised c (packed values) := by
  have hinput : Bits.ofBytes (packed values) = values.map hardDecision := by
    apply Bits.ofBytes_toBytes
    simpa using hbytes
  have hlength : 8 * (packed values).length = values.length := by
    rw [length_packed, Nat.mul_div_cancel' hbytes]
  rw [packed, Soft.hardDecision_flipped c values hvalues, ← hinput, ← hlength,
    ← Hard.ofBytes_randomised, Bits.toBytes_ofBytes]

/-- The blocks agree on every message that the counter of the soft randomiser can count. -/
theorem randomisers_agree_iff (hbytes : 8 ∣ values.length) (hvalues : ∀ x ∈ values, x ≠ 0) :
    Agree header c values ↔ values.length < size32 := by
  constructor
  · intro hagree
    obtain ⟨out, -, hpublishes, -⟩ := hagree c.initial c.initial c.initial c.initial
    exact ((Soft.publishes_iff c _ header values _).mp hpublishes).1.2
  · intro hshort soft hard softAgain hardAgain
    have hpacked : (packed values).length < size32 := by
      rw [length_packed]
      exact Nat.lt_of_le_of_lt (Nat.div_le_self _ _) hshort
    refine ⟨Soft.flipped c values, Hard.randomised c (packed values), ?_, ?_,
      packed_flipped hbytes hvalues, Soft.abs_flipped c values, ?_, ?_⟩
    · exact (Soft.publishes_iff c soft header values _).mpr ⟨⟨hbytes, hshort⟩, rfl⟩
    · exact (Hard.publishes_iff c hard header _ _).mpr ⟨hpacked, rfl⟩
    · refine (Soft.publishes_iff c softAgain header _ _).mpr ⟨?_, ?_⟩
      · rw [Soft.length_flipped]
        exact ⟨hbytes, hshort⟩
      · rw [Soft.flipped_flipped]
        rfl
    · refine (Hard.publishes_iff c hardAgain header _ _).mpr ⟨?_, ?_⟩
      · rwa [Hard.length_randomised]
      · rw [Hard.randomised_randomised]
        rfl

end Messages

/-- One byte of soft bits. -/
theorem randomisers_agree_iff_byte :
    Agree ([] : Header Unit) ⟨0xA9, 0xFF⟩ (List.replicate 8 (1 : ℚ)) := by
  refine (randomisers_agree_iff [] (by simp) ?_).mpr ?_
  · intro x hx
    rw [List.eq_of_mem_replicate hx]
    exact one_ne_zero
  · rw [List.length_replicate]
    decide

/-- A message of 2 ^ 32 soft bits is processed for ever. -/
theorem endless_softbits_disagree :
    ¬ Agree ([] : Header Unit) ⟨0xA9, 0xFF⟩ (List.replicate (2 ^ 32) (1 : ℚ)) := by
  intro hagree
  obtain ⟨out, -, hpublishes, -⟩ := hagree (Config.initial ⟨0xA9, 0xFF⟩)
    (Config.initial ⟨0xA9, 0xFF⟩) (Config.initial ⟨0xA9, 0xFF⟩) (Config.initial ⟨0xA9, 0xFF⟩)
  have hshort := ((Soft.publishes_iff _ _ _ _ _).mp hpublishes).1.2
  rw [List.length_replicate] at hshort
  exact absurd hshort (by decide)

end GrCcsds.Randomiser
