import GrCcsds.Foundation.Wrapping
import Mathlib.Algebra.Order.Field.Basic
import Mathlib.Analysis.SpecialFunctions.Trigonometric.Basic

/-! # The loop filter of the PLL

`lpf2` in exact arithmetic: the types `float` and `double` are one Archimedean
ordered field, and `M_PI` is any positive number. The loops of `wrap` end for
every input, and the wrapped filter keeps all of its states wrapped.
-/

namespace GrCcsds.LoopFilter

open Foundation.WhileLoop Foundation.Wrapping

variable {K : Type*} [Field K] [LinearOrder K]

/-- The constants and the states of the filter. -/
structure Lpf2 (K : Type*) where
  rho : K
  gamma : K
  rhob : K
  phi : K
  xi : K
  ephi : K
deriving DecidableEq

def Lpf2.make (gamma rho : K) : Lpf2 K where
  rho := rho
  gamma := gamma
  rhob := 1 + rho
  phi := 0
  xi := 0
  ephi := 0

def wrap (fuel : Nat) (x max : K) : Option K :=
  if x ≤ max ∧ -max < x then some x
  else
    (whileLoop (fun x => decide (max < x)) (fun x => x - ((2 : Nat) : K) * max) fuel x).bind
      fun x => whileLoop (fun x => decide (x ≤ -max)) (fun x => x + ((2 : Nat) : K) * max) fuel x

namespace Lpf2

def getFreqEstimate (f : Lpf2 K) : K := f.xi

variable (pi : K)

/-- The returned value is the phase before the step. -/
def filterStepWrapped (fuel : Nat) (f : Lpf2 K) (x wrapMax : K) : Option (K × Lpf2 K) :=
  (wrap fuel (x - f.phi) wrapMax).bind fun ephi =>
    (wrap fuel (f.rhob * ephi - f.ephi) wrapMax).bind fun difference =>
      (wrap fuel (f.xi + f.gamma * difference) wrapMax).bind fun xi =>
        (wrap fuel (f.phi + xi) pi).map fun phi =>
          (f.phi, { f with xi := xi, phi := phi, ephi := ephi })

/-- The values and the frequency estimates of an array of inputs. -/
def filterWrapped (fuel : Nat) (wrapMax : K) : Lpf2 K → List K → Option (List (K × K) × Lpf2 K)
  | f, [] => some ([], f)
  | f, x :: rest =>
    (f.filterStepWrapped pi fuel x wrapMax).bind fun (value, next) =>
      (filterWrapped fuel wrapMax next rest).map fun (outputs, last) =>
        ((value, next.getFreqEstimate) :: outputs, last)

/-- Every state lies in its half-open interval. -/
structure Wrapped (wrapMax : K) (f : Lpf2 K) : Prop where
  phi : f.phi ∈ Set.Ioc (-pi) pi
  xi : f.xi ∈ Set.Ioc (-wrapMax) wrapMax
  ephi : f.ephi ∈ Set.Ioc (-wrapMax) wrapMax

end Lpf2

omit [LinearOrder K] in
theorem neg_add_two_mul (max : K) : -max + ((2 : Nat) : K) * max = max := by
  push_cast
  ring

variable [IsStrictOrderedRing K]

theorem two_mul_pos {max : K} (hmax : 0 < max) : 0 < ((2 : Nat) : K) * max :=
  mul_pos (by simp) hmax

theorem Lpf2.wrapped_make {pi wrapMax : K} (hpi : 0 < pi) (hwrap : 0 < wrapMax) (gamma rho : K) :
    (make gamma rho).Wrapped pi wrapMax where
  phi := ⟨neg_lt_zero.mpr hpi, hpi.le⟩
  xi := ⟨neg_lt_zero.mpr hwrap, hwrap.le⟩
  ephi := ⟨neg_lt_zero.mpr hwrap, hwrap.le⟩

variable [Archimedean K]

/-- The loops of `wrap` end with the representative of the input in the interval. -/
theorem ends_wrap {max : K} (hmax : 0 < max) (x : K) :
    Ends (fun fuel => wrap fuel x max) (toIocMod (two_mul_pos hmax) (-max) x) := by
  have hhigh := neg_add_two_mul max
  unfold wrap
  by_cases hinside : x ≤ max ∧ -max < x
  · simp only [if_pos hinside]
    rw [toIocMod_of_mem (two_mul_pos hmax) hhigh hinside.2 hinside.1]
    exact .of_some x
  · simp only [if_neg hinside]
    by_cases hlow : -max < x
    · have hmem := toIocMod_mem_Ioc (two_mul_pos hmax) (-max) x
      exact (ends_lower (two_mul_pos hmax) hhigh hlow).bind
        (ends_of_not (by simpa using hmem.1))
    · have hle : x ≤ max := (not_lt.mp hlow).trans (neg_lt_self hmax).le
      exact (ends_of_not (by simpa using hle)).bind (ends_raise (two_mul_pos hmax) hhigh hle)

/-- `wrap` ends with a value of the interval that differs from its input by a multiple of the
length of the interval, and leaves inputs of the interval alone. -/
theorem exists_wrap {max : K} (hmax : 0 < max) (x : K) :
    ∃ wrapped, Ends (fun fuel => wrap fuel x max) wrapped ∧ wrapped ∈ Set.Ioc (-max) max ∧
      (∃ turns : ℤ, x = wrapped + turns * (2 * max)) ∧
      (x ∈ Set.Ioc (-max) max → wrapped = x) := by
  have hpositive := two_mul_pos hmax
  have hhigh := neg_add_two_mul max
  refine ⟨toIocMod hpositive (-max) x, ends_wrap hmax x, ?_, ?_, ?_⟩
  · have hmem := toIocMod_mem_Ioc hpositive (-max) x
    rwa [hhigh] at hmem
  · refine ⟨toIocDiv hpositive (-max) x, ?_⟩
    simp
  · intro hinside
    exact toIocMod_of_mem hpositive hhigh hinside.1 hinside.2

/-- A value of the interval comes back from any number of lengths of the interval further. -/
theorem ends_wrap_of_turns {max x : K} (hmax : 0 < max) (hx : x ∈ Set.Ioc (-max) max)
    (turns : ℤ) : Ends (fun fuel => wrap fuel (x + turns * (2 * max)) max) x := by
  have hends := ends_wrap hmax (x + turns * (2 * max))
  have hperiod : (turns : K) * (2 * max) = turns • (((2 : Nat) : K) * max) := by
    rw [zsmul_eq_mul, Nat.cast_ofNat]
  rwa [hperiod, toIocMod_add_zsmul,
    toIocMod_of_mem (two_mul_pos hmax) (neg_add_two_mul max) hx.1 hx.2, ← hperiod] at hends

theorem ends_wrap_of_mem {max x : K} (hmax : 0 < max) (hx : x ∈ Set.Ioc (-max) max) :
    Ends (fun fuel => wrap fuel x max) x := by
  simpa using ends_wrap_of_turns hmax hx 0

namespace Lpf2

variable {pi wrapMax : K}

/-- A step returns the wrapped phase of before and wraps every state. -/
theorem exists_filterStepWrapped (hpi : 0 < pi) (hwrap : 0 < wrapMax) (f : Lpf2 K) (x : K) :
    ∃ next : Lpf2 K, Ends (fun fuel => f.filterStepWrapped pi fuel x wrapMax) (f.phi, next) ∧
      next.Wrapped pi wrapMax := by
  obtain ⟨ephi, hephi, hephiRange, -⟩ := exists_wrap hwrap (x - f.phi)
  obtain ⟨difference, hdifference, -⟩ := exists_wrap hwrap (f.rhob * ephi - f.ephi)
  obtain ⟨xi, hxi, hxiRange, -⟩ := exists_wrap hwrap (f.xi + f.gamma * difference)
  obtain ⟨phi, hphi, hphiRange, -⟩ := exists_wrap hpi (f.phi + xi)
  refine ⟨{ f with xi := xi, phi := phi, ephi := ephi }, ?_, ⟨hphiRange, hxiRange, hephiRange⟩⟩
  exact hephi.bind (hdifference.bind (hxi.bind (hphi.map _)))

theorem exists_filterWrapped (hpi : 0 < pi) (hwrap : 0 < wrapMax) {f : Lpf2 K}
    (hf : f.Wrapped pi wrapMax) (inputs : List K) :
    ∃ outputs last, Ends (fun fuel => f.filterWrapped pi fuel wrapMax inputs) (outputs, last) ∧
      last.Wrapped pi wrapMax ∧ outputs.length = inputs.length ∧
      ∀ output ∈ outputs, output.1 ∈ Set.Ioc (-pi) pi := by
  induction inputs generalizing f with
  | nil => exact ⟨[], f, .of_some _, hf, rfl, fun output hmem => absurd hmem List.not_mem_nil⟩
  | cons x rest ih =>
      obtain ⟨next, hstep, hnext⟩ := exists_filterStepWrapped hpi hwrap f x
      obtain ⟨outputs, last, hrest, hlast, hlength, hvalues⟩ := ih hnext
      refine ⟨(f.phi, next.getFreqEstimate) :: outputs, last, hstep.bind (hrest.map _), hlast,
        congrArg Nat.succ hlength, ?_⟩
      intro output hmem
      rcases List.mem_cons.mp hmem with rfl | hrestMem
      · exact hf.phi
      · exact hvalues output hrestMem

/-- `wrap` ends in its interval, and from the initial state on the wrapped filter keeps its states
and the returned values in theirs, for all loop gains and all inputs. -/
theorem filter_stays_wrapped (hpi : 0 < pi) (gamma rho : K) :
    (∀ max : K, 0 < max → ∀ x,
      ∃ wrapped, Ends (fun fuel => wrap fuel x max) wrapped ∧ wrapped ∈ Set.Ioc (-max) max ∧
        (∃ turns : ℤ, x = wrapped + turns * (2 * max)) ∧
        (x ∈ Set.Ioc (-max) max → wrapped = x)) ∧
    ∀ wrapMax : K, 0 < wrapMax → ∀ inputs : List K,
      ∃ outputs last,
        Ends (fun fuel => (make gamma rho).filterWrapped pi fuel wrapMax inputs)
          (outputs, last) ∧
        last.Wrapped pi wrapMax ∧ outputs.length = inputs.length ∧
        ∀ output ∈ outputs, output.1 ∈ Set.Ioc (-pi) pi :=
  ⟨fun _ hmax x => exists_wrap hmax x, fun _ hwrap inputs =>
    exists_filterWrapped hpi hwrap (wrapped_make hpi hwrap gamma rho) inputs⟩

/-- Three inputs of a filter for four phases, with the angles of real numbers. -/
theorem filter_stays_wrapped_real :
    (∃ wrapped : ℝ, Ends (fun fuel => wrap fuel 7 1) wrapped ∧ wrapped ∈ Set.Ioc (-1) 1) ∧
    ∃ outputs last,
      Ends (fun fuel => (make (1 / 2) (1 / 4)).filterWrapped Real.pi fuel (Real.pi / 4)
        [1, -2, 3]) (outputs, last) ∧
      last.Wrapped Real.pi (Real.pi / 4) := by
  obtain ⟨hwraps, hfilters⟩ := filter_stays_wrapped Real.pi_pos (1 / 2) (1 / 4)
  obtain ⟨wrapped, hends, hrange, -⟩ := hwraps 1 one_pos 7
  obtain ⟨outputs, last, hrun, hlast, -⟩ :=
    hfilters (Real.pi / 4) (div_pos Real.pi_pos four_pos) [1, -2, 3]
  exact ⟨⟨wrapped, hends, hrange⟩, outputs, last, hrun, hlast⟩

end Lpf2

end GrCcsds.LoopFilter
