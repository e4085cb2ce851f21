import GrCcsds.Constellations.Points
import Mathlib.Analysis.Real.Sqrt
import Mathlib.Tactic.IntervalCases
import Mathlib.Tactic.Linarith

/-! # Detected ambiguities

The ambiguities of both QPSK constellations are the same quarter turns, and the
decisions compare the same two coordinates. Only on the boundaries they differ,
where the two neighbouring turns undo a correlation equally well.
-/

namespace GrCcsds.Constellations

open GrComplex

variable {K : Type} [Field K] [LinearOrder K] [IsStrictOrderedRing K]

/-- The turn of a QPSK ambiguity, by the two bits of its number. -/
def quarterTurn : Nat → GrComplex K := fun ambiguity =>
  [⟨1, 0⟩, ⟨0, -1⟩, ⟨0, 1⟩, ⟨-1, 0⟩].getD ambiguity 0

/-- Turning a correlation back from its sector. -/
theorem abs_im_le_of_sector {z : GrComplex K} {first second : Bool}
    (hfirst : if first then z.re ≤ z.im else z.im ≤ z.re)
    (hsecond : if second then z.re + z.im ≤ 0 else 0 ≤ z.re + z.im) :
    |(z * star (quarterTurn (2 * toUnsigned first + toUnsigned second))).im| ≤
      (z * star (quarterTurn (2 * toUnsigned first + toUnsigned second))).re := by
  rw [abs_le]
  cases first <;> cases second <;>
    simp [quarterTurn, toUnsigned] at hfirst hsecond ⊢ <;>
    constructor <;> linarith

theorem getAmbiguitySymbol_qpsk (component : Component K) {ambiguity : Nat}
    (hambiguity : ambiguity < 4) :
    (ccsdsQpsk component).getAmbiguitySymbol ambiguity = quarterTurn ambiguity := by
  have hunit := component.double_mul_self
  unfold Constellation.getAmbiguitySymbol
  interval_cases ambiguity <;> ext <;>
    simp [Constellation.modulateSymbol, ccsdsQpsk, quarterTurn] <;> linarith

omit [IsStrictOrderedRing K] in
theorem getAmbiguitySymbol_qpskAxis (component : Component K) {ambiguity : Nat}
    (hambiguity : ambiguity < 4) :
    (ccsdsQpskAxis component).getAmbiguitySymbol ambiguity = quarterTurn ambiguity := by
  unfold Constellation.getAmbiguitySymbol
  interval_cases ambiguity <;> ext <;>
    simp [Constellation.modulateSymbol, ccsdsQpskAxis, quarterTurn]

theorem detectAmbiguity_qpsk (component : Component K) (z : GrComplex K) :
    (ccsdsQpsk component).detectAmbiguity z =
      2 * toUnsigned (z.re < z.im) + toUnsigned (z.re + z.im < 0) := by
  have hpos := component.pos
  change qpskDecisionMaker (z * ⟨component.value, component.value⟩) = _
  rw [qpskDecisionMaker, re_mul_component, im_mul_component]
  simp only [mul_neg_iff, hpos, hpos.not_gt, sub_neg, true_and, false_and, or_false]

theorem detectAmbiguity_qpskAxis (component : Component K) (z : GrComplex K) :
    (ccsdsQpskAxis component).detectAmbiguity z =
      2 * toUnsigned (z.re < z.im) + toUnsigned (z.re + z.im ≤ 0) := by
  have hzero : z * (ccsdsQpskAxis component).modulateSymbol 0 = z := by
    ext
    · simp [Constellation.modulateSymbol, ccsdsQpskAxis]
    · simp [Constellation.modulateSymbol, ccsdsQpskAxis]
  rw [Constellation.detectAmbiguity, hzero]
  change qpskAxisDecisionMaker z = _
  simp only [qpskAxisDecisionMaker, gt_iff_lt, le_neg_iff_add_nonpos_left]

theorem corrected_bpsk (z : GrComplex K) : 0 ≤ ((ccsdsBpsk : Constellation K).corrected z).re := by
  have hdetect : (ccsdsBpsk : Constellation K).detectAmbiguity z = toUnsigned (z.re < 0) := by
    simp [Constellation.detectAmbiguity, Constellation.modulateSymbol, ccsdsBpsk,
      bpskDecisionMaker]
  rw [Constellation.corrected, hdetect]
  by_cases hneg : z.re < 0
  · simpa [toUnsigned, hneg, Constellation.getAmbiguitySymbol, Constellation.modulateSymbol,
      ccsdsBpsk] using hneg.le
  · simpa [toUnsigned, hneg, Constellation.getAmbiguitySymbol, Constellation.modulateSymbol,
      ccsdsBpsk] using le_of_not_gt hneg

theorem toUnsigned_le (b : Bool) : toUnsigned b ≤ 1 := by cases b <;> decide

omit [IsStrictOrderedRing K] [Field K] in
/-- The order that a comparison decides, or the other one. -/
theorem le_of_decide_lt (x y : K) : if decide (x < y) then x ≤ y else y ≤ x := by
  by_cases hlt : x < y
  · simpa [hlt] using hlt.le
  · simpa [hlt] using le_of_not_gt hlt

theorem corrected_qpsk (component : Component K) (z : GrComplex K) :
    |((ccsdsQpsk component).corrected z).im| ≤ ((ccsdsQpsk component).corrected z).re := by
  have hfirst := toUnsigned_le (z.re < z.im)
  have hsecond := toUnsigned_le (z.re + z.im < 0)
  rw [Constellation.corrected, detectAmbiguity_qpsk,
    getAmbiguitySymbol_qpsk component (by omega)]
  exact abs_im_le_of_sector (le_of_decide_lt z.re z.im) (le_of_decide_lt (z.re + z.im) 0)

theorem corrected_qpskAxis (component : Component K) (z : GrComplex K) :
    |((ccsdsQpskAxis component).corrected z).im| ≤ ((ccsdsQpskAxis component).corrected z).re := by
  have hfirst := toUnsigned_le (z.re < z.im)
  have hsecond := toUnsigned_le (z.re + z.im ≤ 0)
  rw [Constellation.corrected, detectAmbiguity_qpskAxis,
    getAmbiguitySymbol_qpskAxis component (by omega)]
  apply abs_im_le_of_sector (le_of_decide_lt z.re z.im)
  by_cases hle : z.re + z.im ≤ 0
  · simp [hle]
  · simpa [hle] using le_of_not_ge hle

section Symbols

variable {r : K} {ambiguity : Nat}

theorem detectAmbiguity_symbol_bpsk (hr : 0 < r) (hambiguity : ambiguity < 2) :
    (ccsdsBpsk : Constellation K).detectAmbiguity
      (r • (ccsdsBpsk : Constellation K).getAmbiguitySymbol ambiguity) = ambiguity := by
  interval_cases ambiguity <;>
    simp [Constellation.detectAmbiguity, Constellation.getAmbiguitySymbol,
      Constellation.modulateSymbol, ccsdsBpsk, bpskDecisionMaker, toUnsigned, hr, hr.le]

theorem detectAmbiguity_symbol_qpsk (component : Component K) (hr : 0 < r)
    (hambiguity : ambiguity < 4) :
    (ccsdsQpsk component).detectAmbiguity
      (r • (ccsdsQpsk component).getAmbiguitySymbol ambiguity) = ambiguity := by
  rw [getAmbiguitySymbol_qpsk component hambiguity, detectAmbiguity_qpsk]
  interval_cases ambiguity <;> simp [quarterTurn, toUnsigned, hr, hr.le]

theorem detectAmbiguity_symbol_qpskAxis (component : Component K) (hr : 0 < r)
    (hambiguity : ambiguity < 4) :
    (ccsdsQpskAxis component).detectAmbiguity
      (r • (ccsdsQpskAxis component).getAmbiguitySymbol ambiguity) = ambiguity := by
  rw [getAmbiguitySymbol_qpskAxis component hambiguity, detectAmbiguity_qpskAxis]
  interval_cases ambiguity <;> simp [quarterTurn, toUnsigned, hr, hr.le]

end Symbols

/-- Undoing the detected ambiguity turns every correlation to the real axis, and the symbol of
an ambiguity is detected as this ambiguity. -/
theorem ambiguity_undone (component : Component K) :
    (∀ z : GrComplex K, z ≠ 0 → 0 ≤ (ccsdsBpsk.corrected z).re) ∧
    (∀ con ∈ [ccsdsQpsk component, ccsdsQpskAxis component],
      ∀ z : GrComplex K, z ≠ 0 → |(con.corrected z).im| ≤ (con.corrected z).re) ∧
    ∀ con ∈ [ccsdsBpsk, ccsdsQpsk component, ccsdsQpskAxis component],
      ∀ ambiguity < con.points.length, ∀ r : K, 0 < r →
        con.detectAmbiguity (r • con.getAmbiguitySymbol ambiguity) = ambiguity := by
  refine ⟨fun z _ => corrected_bpsk z, ?_, ?_⟩
  · intro con hcon z _
    simp only [List.mem_cons, List.not_mem_nil, or_false] at hcon
    rcases hcon with rfl | rfl
    · exact corrected_qpsk component z
    · exact corrected_qpskAxis component z
  · intro con hcon ambiguity hambiguity r hr
    simp only [List.mem_cons, List.not_mem_nil, or_false] at hcon
    rcases hcon with rfl | rfl | rfl
    · exact detectAmbiguity_symbol_bpsk hr hambiguity
    · exact detectAmbiguity_symbol_qpsk component hr hambiguity
    · exact detectAmbiguity_symbol_qpskAxis component hr hambiguity

/-- The component as a real number. -/
noncomputable def realComponent : Component ℝ where
  value := 1 / Real.sqrt ((2 : Nat) : ℝ)
  pos := by positivity
  double_mul_self := by
    rw [div_mul_div_comm, Real.mul_self_sqrt (Nat.cast_nonneg 2)]
    norm_num

/-- A correlation on the boundary of two real quarter planes. -/
theorem ambiguity_undone_real :
    |((ccsdsQpskAxis realComponent).corrected ⟨1, 1⟩).im| ≤
      ((ccsdsQpskAxis realComponent).corrected ⟨1, 1⟩).re :=
  (ambiguity_undone realComponent).2.1 _ (by simp) ⟨1, 1⟩ (by
    intro hzero
    exact one_ne_zero (congrArg QuadraticAlgebra.re hzero))

end GrCcsds.Constellations
