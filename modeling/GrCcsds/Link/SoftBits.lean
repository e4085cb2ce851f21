import GrCcsds.Ambiguity.Acquisition
import GrCcsds.Pll.Chain

/-! # The soft bits of a rotated stream of symbols

Behind a channel and the loop the detector puts out the bits of the rotated
symbols as signs. In another ambiguity the resolver sees the bits of a further
rotation, and in the right one those that have been sent.
-/

namespace GrCcsds.Link

open Utils Foundation Softbits
open Ambiguity Pll

/-- A bit of a stream of symbols after a rotation by some points. -/
def rotatedBit (ldM rotation : Nat) (symbols : Nat → UInt8) (p : Nat) : Bool :=
  (mpskMap (2 ^ ldM) ((mpskRevMap (2 ^ ldM) (symbols (p / ldM)).toNat + rotation) %
    2 ^ ldM)).testBit (ldM - 1 - p % ldM)

/-- A bit of a stream of symbols, the most significant bit of each first. -/
def sentBit (ldM : Nat) (symbols : Nat → UInt8) (p : Nat) : Bool :=
  (symbols (p / ldM)).toNat.testBit (ldM - 1 - p % ldM)

variable {ldM : Nat} {symbols : Nat → UInt8}

theorem rotatedBit_zero (hle : ldM ≤ 8) (hsymbols : ∀ n, (symbols n).toNat < 2 ^ ldM) (p : Nat) :
    rotatedBit ldM 0 symbols p = sentBit ldM symbols p := by
  rw [rotatedBit, Nat.add_zero, Nat.mod_eq_of_lt (mpskRevMap_lt (hsymbols _)),
    mpskMap_mpskRevMap hle (hsymbols _), sentBit]

/-- Moving back by less than before. -/
theorem rotateBack_add_mod_of_le {order index ambiguity other : Nat} (hindex : index < order)
    (hambiguity : ambiguity < order) (hother : other ≤ ambiguity) :
    rotateBack order ((index + ambiguity) % order) other =
      (index + (ambiguity - other)) % order := by
  have hbehind := Nat.lt_of_le_of_lt hother hambiguity
  have hless := Nat.lt_of_le_of_lt (Nat.sub_le ambiguity other) hambiguity
  rw [rotateBack_eq (Nat.mod_lt _ (Nat.zero_lt_of_lt hindex)) hbehind,
    add_mod_eq hindex hambiguity, add_mod_eq hindex hless]
  split <;> split <;> split <;> omega

variable {K : Type} [Field K] [LinearOrder K] [FloorRing K]

open scoped ExactNumbers

/-- The soft bits of the rotated symbols, each as strong as its sample. -/
def receivedSoft (ldM ambiguity : Nat) (symbols : Nat → UInt8) (gain : Nat → K) (p : Nat) : K :=
  createFromSample
    (if rotatedBit ldM ambiguity symbols p then gain (p / ldM) * gain (p / ldM)
      else -(gain (p / ldM) * gain (p / ldM)))

section Detector

/-- The detector makes these soft bits of samples that it takes for the rotated symbols. -/
theorem work_eq_receivedSoft (hpos : 0 < ldM) {ambiguity : Nat} {gain : Nat → K}
    {det : Detector K} (hldM : det.ldM = ldM) {samples : List (Sample K)}
    (hsamples : ∀ n < samples.length, ∃ x, samples[n]? = some x ∧ x.amplitude = gain n ∧
      det.symBits x = mpskMap (2 ^ ldM) (pointIndex ldM ambiguity symbols n % 2 ^ ldM)) :
    det.work samples =
      (List.range (ldM * samples.length)).map (receivedSoft ldM ambiguity symbols gain) := by
  have hlength : (det.work samples).length = ldM * samples.length :=
    Grouping.length_flatMap_blocks (fun x => (length_symbol_detector det x).trans hldM) samples
  apply List.ext_getElem?
  intro p
  by_cases hp : p < ldM * samples.length
  · have hj : p % ldM < ldM := Nat.mod_lt p hpos
    obtain ⟨x, hx, hamplitude, hsymbol⟩ := hsamples (p / ldM) (Nat.div_lt_of_lt_mul hp)
    have hblock := Grouping.getElem?_flatMap_blocks
      (fun x => (length_symbol_detector det x).trans hldM) samples (p / ldM) hj
    rw [Nat.div_add_mod, hx, Option.bind_some] at hblock
    rw [Detector.work, hblock, List.getElem?_map, List.getElem?_range hp, Option.map_some]
    simp only [Detector.symbol, hldM, List.getElem?_map, List.getElem?_range hj, Option.map_some,
      hsymbol, Sample.magnitudeSquared, hamplitude]
    rfl
  · rw [List.getElem?_eq_none (by omega), List.getElem?_eq_none (by simpa using hp)]

end Detector

section Signs

variable [IsStrictOrderedRing K] {ambiguity : Nat} {gain : Nat → K}

theorem receivedSoft_sign (hgain : ∀ n, 0 < gain n) (p : Nat) :
    HasSign (receivedSoft ldM ambiguity symbols gain p) ∧
      (0 < receivedSoft ldM ambiguity symbols gain p ↔
        rotatedBit ldM ambiguity symbols p = true) := by
  have hpos := mul_pos (hgain (p / ldM)) (hgain (p / ldM))
  rw [receivedSoft, HasSign, createFromSample_pos, createFromSample_neg]
  split
  next hbit => simp [hbit, hpos]
  next hbit => simp [hbit, hpos, hpos.le]

/-- The bits that the block sees in another ambiguity, which are those of the symbols in the
right one. -/
theorem convertBit_receivedSoft (hpos : 0 < ldM) (hle : ldM ≤ 8)
    (hsymbols : ∀ n, (symbols n).toNat < 2 ^ ldM) (hgain : ∀ n, 0 < gain n)
    (hambiguity : ambiguity < 2 ^ ldM) {other : Nat} (hother : other ≤ ambiguity) (p : Nat) :
    HasSign (convertBit ldM (receivedSoft ldM ambiguity symbols gain) other p) ∧
      (0 < convertBit ldM (receivedSoft ldM ambiguity symbols gain) other p ↔
        rotatedBit ldM (ambiguity - other) symbols p = true) := by
  have hindex := mpskRevMap_lt (hsymbols (p / ldM))
  have hmod := Nat.mod_lt (mpskRevMap (2 ^ ldM) (symbols (p / ldM)).toNat + ambiguity)
    (Nat.two_pow_pos ldM)
  have hsign : HasSign (receivedSoft ldM ambiguity symbols gain p) := (receivedSoft_sign hgain p).1
  have hword : symbolBits ldM (receivedSoft ldM ambiguity symbols gain) (p / ldM) =
      mpskMap (2 ^ ldM)
        ((mpskRevMap (2 ^ ldM) (symbols (p / ldM)).toNat + ambiguity) % 2 ^ ldM) := by
    refine convertToChar_eq hle (mpskMap_lt hmod) fun j hj => ?_
    rw [(receivedSoft_sign hgain _).2, rotatedBit, Nat.mul_add_div hpos, Nat.div_eq_of_lt hj,
      Nat.add_zero, Nat.mul_add_mod, Nat.mod_eq_of_lt hj]
  have hbit := pos_convertBit hpos hle other hsign
  rw [symbolIndex, hword, mpskRevMap_mpskMap hle hmod,
    rotateBack_add_mod_of_le hindex hambiguity hother] at hbit
  exact ⟨hsign.of_magnitude (magnitude_convertBit hsign other), hbit⟩

/-- No conversion makes a soft bit weaker. -/
theorem abs_convertBit_receivedSoft (hgain : ∀ n, 0 < gain n) (other p : Nat) :
    |convertBit ldM (receivedSoft ldM ambiguity symbols gain) other p| =
      2000 * gain (p / ldM) ^ 2 := by
  have hsign : HasSign (receivedSoft ldM ambiguity symbols gain p) := (receivedSoft_sign hgain p).1
  have hnonneg : 0 ≤ 2000 * gain (p / ldM) ^ 2 := by positivity
  rw [← magnitude_eq_abs, magnitude_convertBit hsign, magnitude_eq_abs, receivedSoft,
    createFromSample_eq]
  split
  · rw [← sq, abs_of_nonneg hnonneg]
  · rw [← sq, mul_neg, abs_neg, abs_of_nonneg hnonneg]

end Signs

section Correlation

variable [IsStrictOrderedRing K] {cfg : Config K} {input : Nat → K} {offset : Nat}

omit [IsStrictOrderedRing K] in
theorem foldl_add_eq_sum (f : Nat → K) (indices : List Nat) :
    indices.foldl (fun sum i => sum + f i) 0 = (indices.map f).sum := by
  rw [List.sum_eq_foldl, List.foldl_map]

/-- The correlation as a quotient of sums. -/
theorem checkForAsm_eq (cfg : Config K) (input : Nat → K) (offset : Nat) :
    checkForAsm cfg input offset =
      ((List.range cfg.asmLenBits).map fun i => cfg.asm i * input (i + offset)).sum /
        max ((List.range cfg.asmLenBits).map fun i => |input (i + offset)|).sum cfg.asmLenBits := by
  have hcorrelation := foldl_add_eq_sum (fun i => cfg.asm i * input (i + offset))
    (List.range cfg.asmLenBits)
  have hmagnitude := foldl_add_eq_sum (fun i => magnitude (input (i + offset)))
    (List.range cfg.asmLenBits)
  simp only [magnitude_eq_abs] at hmagnitude
  have hlarger : ∀ a b : K, pickLarger a b = max a b := by
    intro a b
    unfold pickLarger
    split
    next hless => exact (max_eq_left hless.le).symm
    next hmore => exact (max_eq_right (not_lt.mp hmore)).symm
  unfold checkForAsm
  simp only [magnitude_eq_abs]
  change List.foldl (fun sum i => sum + cfg.asm i * input (i + offset)) 0 _ /
    pickLarger (List.foldl (fun sum i => sum + |input (i + offset)|) 0 _) _ = _
  rw [hcorrelation, hmagnitude, hlarger]

theorem asmLenBits_pos_cast (cfg : Config K) : (0 : K) < cfg.asmLenBits :=
  Nat.cast_pos.mpr cfg.asmLenBits_pos

/-- Strong bits with the signs of the ASM correlate with it completely. -/
theorem checkForAsm_eq_one
    (hmatch : ∀ i < cfg.asmLenBits, cfg.asm i * input (i + offset) = |input (i + offset)|)
    (hstrong : ∀ i < cfg.asmLenBits, 1 ≤ |input (i + offset)|) :
    checkForAsm cfg input offset = 1 := by
  have hsums : ((List.range cfg.asmLenBits).map fun i => cfg.asm i * input (i + offset)) =
      (List.range cfg.asmLenBits).map fun i => |input (i + offset)| :=
    List.map_congr_left fun i hi => hmatch i (List.mem_range.mp hi)
  have hlarge : (cfg.asmLenBits : K) ≤
      ((List.range cfg.asmLenBits).map fun i => |input (i + offset)|).sum := by
    have hcount := List.card_nsmul_le_sum
      ((List.range cfg.asmLenBits).map fun i => |input (i + offset)|) 1 (by
        intro x hx
        obtain ⟨i, hi, rfl⟩ := List.mem_map.mp hx
        exact hstrong i (List.mem_range.mp hi))
    simpa using hcount
  rw [checkForAsm_eq, hsums, max_eq_left hlarge]
  exact div_self ((asmLenBits_pos_cast cfg).trans_le hlarge).ne'

/-- A wrong sign lowers the correlation. -/
theorem checkForAsm_lt_one (hasm : cfg.Bipolar)
    (hwrong : ∃ i < cfg.asmLenBits, cfg.asm i * input (i + offset) < |input (i + offset)|) :
    checkForAsm cfg input offset < 1 := by
  obtain ⟨i, hi, hless⟩ := hwrong
  have hterm : ∀ j ∈ List.range cfg.asmLenBits,
      cfg.asm j * input (j + offset) ≤ |input (j + offset)| := by
    intro j hj
    rcases hasm j (List.mem_range.mp hj) with hone | hminus
    · rw [hone]
      exact (one_mul _).trans_le (le_abs_self _)
    · rw [hminus]
      exact (neg_one_mul _).trans_le (neg_le_abs _)
  have hsum := List.sum_lt_sum _ _ hterm ⟨i, List.mem_range.mpr hi, hless⟩
  rw [checkForAsm_eq, div_lt_one ((asmLenBits_pos_cast cfg).trans_le (le_max_right _ _))]
  exact hsum.trans_le (le_max_left _ _)

end Correlation

end GrCcsds.Link
