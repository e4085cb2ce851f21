import GrCcsds.Arithmetic
import GrCcsds.Constellations.Ambiguities
import GrCcsds.Softbits
import Mathlib.Tactic.Positivity

/-! # Soft and hard demodulation

A soft decision is a negative multiple of the coordinate that the hard decision
compares with zero, for the points on the axes after a rotation by an eighth of
a turn.
-/

namespace GrCcsds.Constellations

open GrComplex Softbits

variable {K : Type} [Field K] [LinearOrder K] [IsStrictOrderedRing K]

/-- The number with the given bits, the first one as the most significant. -/
def ofBits (bits : List Bool) : Nat := bits.foldl (fun number bit => 2 * number + bit.toNat) 0

/-- The samples on the boundary of two decisions. -/
def BpskBoundary (sample : GrComplex K) : Prop := sample.re = 0

def QpskBoundary (sample : GrComplex K) : Prop := sample.re = 0 ∨ sample.im = 0

def QpskAxisBoundary (sample : GrComplex K) : Prop :=
  sample.im = sample.re ∨ sample.im = -sample.re

section Decisions

variable [FloorRing K]

open scoped ExactNumbers

/-- The hard decision of a negative multiple of a coordinate. -/
theorem hardDecision_of_ne {x factor npwr : K} (hx : x ≠ 0) (hfactor : factor < 0)
    (hnpwr : 0 < npwr) : hardDecision (factor * x / npwr) = decide (x < 0) := by
  have hiff : 0 ≤ factor * x / npwr ↔ x < 0 := by
    rw [le_div_iff₀ hnpwr, zero_mul]
    rcases lt_or_gt_of_ne hx with hneg | hpos
    · exact iff_of_true (mul_pos_of_neg_of_neg hfactor hneg).le hneg
    · exact iff_of_false (mul_neg_of_neg_of_pos hfactor hpos).not_ge hpos.not_gt
  exact decide_eq_decide.mpr hiff

theorem ofBits_bpsk {sample : GrComplex K} {npwr : K} (hsample : ¬ BpskBoundary sample)
    (hnpwr : 0 < npwr) :
    ofBits ((bpskCalcSoftDec sample npwr).map hardDecision) = bpskDecisionMaker sample := by
  have hsoft : bpskCalcSoftDec sample npwr = [-((4 : Nat) : K) * sample.re / npwr] := by
    rw [bpskCalcSoftDec, QuadraticAlgebra.re_smul, smul_eq_mul, neg_mul]
  have hfactor : -((4 : Nat) : K) < 0 := by norm_num
  rw [hsoft, List.map_singleton, hardDecision_of_ne hsample hfactor hnpwr, bpskDecisionMaker]
  by_cases hneg : sample.re < 0 <;> simp [hneg, ofBits, toUnsigned]

/-- Two hard decisions form the number of a QPSK symbol. -/
theorem ofBits_pair (first second : Bool) :
    ofBits [first, second] = 2 * toUnsigned first + toUnsigned second := by
  cases first <;> cases second <;> rfl

variable (component : Component K)

theorem factor_neg : -((2 : Nat) : K) * component.value < 0 := by
  have hpos := component.pos
  rw [neg_mul, neg_lt_zero]
  positivity

theorem ofBits_qpsk {sample : GrComplex K} {npwr : K} (hsample : ¬ QpskBoundary sample)
    (hnpwr : 0 < npwr) :
    ofBits ((qpskCalcSoftDec component sample npwr).map hardDecision) =
      qpskDecisionMaker sample := by
  obtain ⟨hre, him⟩ := not_or.mp hsample
  have hfactor := factor_neg component
  rw [qpskCalcSoftDec, List.map_cons, List.map_singleton,
    hardDecision_of_ne hre hfactor hnpwr, hardDecision_of_ne him hfactor hnpwr, ofBits_pair,
    qpskDecisionMaker]

theorem ofBits_qpskAxis {sample : GrComplex K} {npwr : K} (hsample : ¬ QpskAxisBoundary sample)
    (hnpwr : 0 < npwr) :
    ofBits ((qpskAxisCalcSoftDec component sample npwr).map hardDecision) =
      qpskAxisDecisionMaker sample := by
  obtain ⟨hfirst, hsecond⟩ := not_or.mp hsample
  have hpos := component.pos
  have hfactor := factor_neg component
  have hre : component.value * (sample.re - sample.im) ≠ 0 :=
    mul_ne_zero hpos.ne' (sub_ne_zero.mpr (Ne.symm hfirst))
  have him : component.value * (sample.re + sample.im) ≠ 0 := by
    refine mul_ne_zero hpos.ne' fun hzero => hsecond ?_
    exact eq_neg_of_add_eq_zero_right hzero
  have hmsb : component.value * (sample.re - sample.im) < 0 ↔ sample.im > sample.re := by
    simp [mul_neg_iff, hpos, hpos.not_gt]
  have hlsb : component.value * (sample.re + sample.im) < 0 ↔ sample.im ≤ -sample.re := by
    have hle : sample.im ≤ -sample.re ↔ sample.im < -sample.re :=
      ⟨fun hle => lt_of_le_of_ne hle hsecond, le_of_lt⟩
    rw [hle, lt_neg_iff_add_neg']
    simp [mul_neg_iff, hpos, hpos.not_gt]
  rw [qpskAxisCalcSoftDec, re_mul_component, im_mul_component, List.map_cons, List.map_singleton,
    hardDecision_of_ne hre hfactor hnpwr, hardDecision_of_ne him hfactor hnpwr, ofBits_pair,
    qpskAxisDecisionMaker]
  simp only [hmsb, hlsb]

theorem decisionMaker_point {con : Constellation K}
    (hcon : con ∈ [ccsdsBpsk, ccsdsQpsk component, ccsdsQpskAxis component]) {b : Nat}
    (hb : b < con.points.length) : con.decisionMaker (con.modulateSymbol b) = b := by
  have hpos := component.pos
  have hle := hpos.le
  simp only [List.mem_cons, List.not_mem_nil, or_false] at hcon
  rcases hcon with rfl | rfl | rfl
  · have hlt : b < 2 := hb
    interval_cases b <;>
      simp [Constellation.modulateSymbol, ccsdsBpsk, bpskDecisionMaker, toUnsigned]
  · have hlt : b < 4 := hb
    interval_cases b <;>
      simp [Constellation.modulateSymbol, ccsdsQpsk, qpskDecisionMaker, toUnsigned, hpos, hle]
  · have hlt : b < 4 := hb
    interval_cases b <;>
      simp [Constellation.modulateSymbol, ccsdsQpskAxis, qpskAxisDecisionMaker, toUnsigned]

/-- Off the boundaries of the decisions, the hard decisions of the soft decisions form the
number of the symbol that is decided for, and every point is decided for its symbol. -/
theorem soft_forms_hard :
    (∀ (sample : GrComplex K) (npwr : K), ¬ BpskBoundary sample → 0 < npwr →
      ofBits ((ccsdsBpsk.calcSoftDec sample npwr).map hardDecision) =
        ccsdsBpsk.decisionMaker sample) ∧
    (∀ (sample : GrComplex K) (npwr : K), ¬ QpskBoundary sample → 0 < npwr →
      ofBits (((ccsdsQpsk component).calcSoftDec sample npwr).map hardDecision) =
        (ccsdsQpsk component).decisionMaker sample) ∧
    (∀ (sample : GrComplex K) (npwr : K), ¬ QpskAxisBoundary sample → 0 < npwr →
      ofBits (((ccsdsQpskAxis component).calcSoftDec sample npwr).map hardDecision) =
        (ccsdsQpskAxis component).decisionMaker sample) ∧
    ∀ con ∈ [ccsdsBpsk, ccsdsQpsk component, ccsdsQpskAxis component],
      ∀ b < con.points.length, con.decisionMaker (con.modulateSymbol b) = b :=
  ⟨fun _ _ => ofBits_bpsk, fun _ _ => ofBits_qpsk component, fun _ _ => ofBits_qpskAxis component,
    fun _ hcon _ => decisionMaker_point component hcon⟩

/-- A real sample on an axis. -/
theorem soft_forms_hard_real :
    ofBits (((ccsdsQpskAxis realComponent).calcSoftDec ⟨1, 0⟩ 1).map hardDecision) =
      (ccsdsQpskAxis realComponent).decisionMaker ⟨1, 0⟩ := by
  have hsample : ¬ QpskAxisBoundary (⟨1, 0⟩ : GrComplex ℝ) := by
    simp [QpskAxisBoundary]
  exact (soft_forms_hard realComponent).2.2.1 ⟨1, 0⟩ 1 hsample one_pos

end Decisions

end GrCcsds.Constellations
