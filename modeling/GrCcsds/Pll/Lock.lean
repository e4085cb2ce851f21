import GrCcsds.Ambiguity.Chain
import GrCcsds.Foundation.SecondOrder
import GrCcsds.Pll.Block

/-! # The lock of the loop

Behind the power law detector the loop sees the carrier without the data. As
long as nothing wraps, the phase errors follow a linear recurrence, and a
quadratic form of the first two errors decides that nothing ever wraps.
-/

namespace GrCcsds.Pll

open Utils LoopFilter Foundation Foundation.WhileLoop
open Ambiguity (Sample)
open ExactNumbers (exactArithmetic)

variable {K : Type} [Field K]

/-- A carrier relative to the constellation: its phase at the first sample and its turns in every
sample. -/
structure Carrier (K : Type) where
  phase : K
  frequency : K

namespace Carrier

def phaseAt (c : Carrier K) (n : Nat) : K := c.phase + n * c.frequency

def p (f : Lpf2 K) : K := ((2 : Nat) : K) - f.gamma * (1 + f.rho)

def q (f : Lpf2 K) : K := 1 - f.gamma

/-- What the first step of the loop makes of the phase. -/
def second (c : Carrier K) (f : Lpf2 K) : K :=
  c.phase + c.frequency - f.gamma * (1 + f.rho) * c.phase

/-- The phase errors of the linear loop. -/
def error (c : Carrier K) (f : Lpf2 K) : Nat → K :=
  SecondOrder.sequence (p f) (q f) c.phase (c.second f)

/-- The frequency estimates of the linear loop. -/
def estimate (c : Carrier K) (f : Lpf2 K) : Nat → K
  | 0 => 0
  | n + 1 => c.frequency + c.error f n - c.error f (n + 1)

def previousError (c : Carrier K) (f : Lpf2 K) : Nat → K
  | 0 => 0
  | n + 1 => c.error f n

/-- The half distance of the points. -/
def half (order : Nat) : K := 1 / ((2 : Nat) : K) / (order : K)

theorem half_eq (order : Nat) : half (K := K) order = 1 / (2 * (order : K)) := div_div ..

variable (c : Carrier K) (f : Lpf2 K)

theorem estimate_succ (n : Nat) :
    c.estimate f (n + 1) =
      c.estimate f n + f.gamma * ((1 + f.rho) * c.error f n - c.previousError f n) := by
  cases n with
  | zero =>
      simp only [estimate, previousError, error, SecondOrder.sequence, second]
      ring
  | succ n =>
      simp only [estimate, previousError, error, SecondOrder.sequence, p, q]
      ring

theorem error_succ (n : Nat) :
    c.error f (n + 1) = c.error f n + c.frequency - c.estimate f (n + 1) := by
  rw [estimate]
  ring

variable [LinearOrder K]

/-- The samples of a stream are points of the constellation on a carrier, of which the powers can be
stored. -/
def Received (order : Nat) (c : Carrier K) (index : Nat → ℤ) (input : Nat → Sample K) : Prop :=
  ∀ n, Storable order (input n).amplitude ∧
    ∃ turns : ℤ, (input n).angle = (index n : K) / order + c.phaseAt n + turns

/-- The carriers from which the loop never wraps a value, with a bound of the phase errors. -/
structure Captured (order : Nat) (c : Carrier K) (f : Lpf2 K) (bound : K) : Prop where
  nonneg : 0 ≤ bound
  energy : SecondOrder.energy (p f) (q f) (c.second f) c.phase ≤
    (1 - SecondOrder.ratio (p f) (q f) ^ 2) * bound ^ 2
  detector : (2 + f.rho) * bound < half order
  frequency : |c.frequency| + 2 * bound < half order

variable [IsStrictOrderedRing K]

theorem stable {f : Lpf2 K} (hf : f.Stable 1) : SecondOrder.Stable (p f) (q f) := by
  have hstable := hf.secondOrder
  rwa [mul_one, ← Nat.cast_ofNat] at hstable

namespace Captured

variable {c f} {order : Nat} {bound : K} (hf : f.Stable 1) (hcaptured : c.Captured order f bound)

include hf hcaptured

theorem abs_error_le (n : Nat) : |c.error f n| ≤ bound :=
  (stable hf).abs_sequence_le _ _ hcaptured.nonneg hcaptured.energy n

theorem bound_lt : bound < half order := by
  have hpos := hf.rho_pos
  have hnonneg := hcaptured.nonneg
  have hless := hcaptured.detector
  have hproduct := mul_nonneg hpos.le hnonneg
  linarith

theorem error_mem (n : Nat) : c.error f n ∈ Set.Ioc (-half order) (half order) := by
  obtain ⟨hlow, hhigh⟩ := abs_le.mp (hcaptured.abs_error_le hf n)
  have hbound := hcaptured.bound_lt hf
  constructor <;> linarith

theorem abs_previousError_le (n : Nat) : |c.previousError f n| ≤ bound := by
  cases n with
  | zero => simpa [previousError] using hcaptured.nonneg
  | succ n => exact hcaptured.abs_error_le hf n

theorem difference_mem (n : Nat) :
    (1 + f.rho) * c.error f n - c.previousError f n ∈ Set.Ioc (-half order) (half order) := by
  obtain ⟨hlow, hhigh⟩ := abs_le.mp (hcaptured.abs_error_le hf n)
  obtain ⟨hlowPrevious, hhighPrevious⟩ := abs_le.mp (hcaptured.abs_previousError_le hf n)
  have hfactor : 0 ≤ 1 + f.rho := by linarith [hf.rho_pos]
  have hlowScaled := mul_le_mul_of_nonneg_left hlow hfactor
  have hhighScaled := mul_le_mul_of_nonneg_left hhigh hfactor
  have hdetector := hcaptured.detector
  constructor <;> linarith

theorem estimate_mem (n : Nat) : c.estimate f (n + 1) ∈ Set.Ioc (-half order) (half order) := by
  obtain ⟨hlow, hhigh⟩ := abs_le.mp (hcaptured.abs_error_le hf n)
  obtain ⟨hlowNext, hhighNext⟩ := abs_le.mp (hcaptured.abs_error_le hf (n + 1))
  obtain ⟨hlowFrequency, hhighFrequency⟩ := abs_le.mp (le_refl |c.frequency|)
  have hfrequency := hcaptured.frequency
  rw [estimate]
  constructor <;> linarith

omit hf in
theorem half_pos : 0 < half (K := K) order := by
  have hnonneg := hcaptured.nonneg
  have hfrequency := hcaptured.frequency
  linarith [abs_nonneg c.frequency]

end Captured

/-! ## The filter -/

variable [FloorRing K]

/-- The states of the filter before a sample. Whole turns of its phase do not matter. -/
structure Tracking (c : Carrier K) (gains : Lpf2 K) (n : Nat) (f : Lpf2 K) : Prop where
  gamma : f.gamma = gains.gamma
  rhob : f.rhob = 1 + gains.rho
  xi : f.xi = c.estimate gains n
  ephi : f.ephi = c.previousError gains n
  phi : ∃ turns : ℤ, f.phi = c.phaseAt n - c.error gains n + turns

/-- The phase of a sample is that of the carrier, up to the distances of points. -/
theorem Received.calcPhase (float : ComplexFloat K) {order : Nat} {index : Nat → ℤ}
    {input : Nat → Sample K} (hreceived : Received order c index input) (horder : 0 < order)
    (n : Nat) :
    ∃ points : ℤ, Pll.calcPhase order (removeModulation float order (input n)) =
      c.phaseAt n + points * (2 * half order) := by
  obtain ⟨hstorable, turns, hangle⟩ := hreceived n
  have hscale : (order : K) ≠ 0 := Nat.cast_ne_zero.mpr horder.ne'
  obtain ⟨wraps, hwraps⟩ := Sector.wrap_eq ((order : K) * (input n).angle)
  refine ⟨index n + wraps + order * turns, ?_⟩
  have hpower : (input n).amplitude ^ order ≠ 0 := (pow_pos hstorable.pos order).ne'
  rw [removeModulation_eq float hstorable, Pll.calcPhase, if_neg hpower, Ambiguity.atan2_eq_wrap,
    hwraps, hangle, half_eq]
  push_cast
  field_simp
  ring

section Step

variable {c} {gains : Lpf2 K} {order : Nat} {bound : K} (hgains : gains.Stable 1)
  (hcaptured : c.Captured order gains bound)

include hgains hcaptured

/-- A step wraps nothing but the distances of the points. -/
theorem Tracking.step {n : Nat} {f : Lpf2 K} (hf : c.Tracking gains n f) {x : K} {points : ℤ}
    (hx : x = c.phaseAt n + points * (2 * half order)) (horder : 0 < order) :
    ∃ next, Ends (fun fuel => f.filterStepWrapped (1 / 2) fuel x (half order)) (f.phi, next) ∧
      c.Tracking gains (n + 1) next := by
  obtain ⟨hgamma, hrhob, hxi, hephi, turns, hphi⟩ := hf
  have hpos := hcaptured.half_pos
  have hperiod : (order : K) * (2 * half order) = 1 := by
    have hscale : (order : K) ≠ 0 := Nat.cast_ne_zero.mpr horder.ne'
    rw [half_eq]
    field_simp
  have hwrapEphi : Ends (fun fuel => wrap fuel (x - f.phi) (half order)) (c.error gains n) := by
    have hinput : x - f.phi =
        c.error gains n + (points - order * turns : ℤ) * (2 * half order) := by
      rw [hx, hphi]
      push_cast
      linear_combination (turns : K) * hperiod
    rw [hinput]
    exact ends_wrap_of_turns hpos (hcaptured.error_mem hgains n) _
  have hwrapDifference : Ends
      (fun fuel => wrap fuel (f.rhob * c.error gains n - f.ephi) (half order))
      ((1 + gains.rho) * c.error gains n - c.previousError gains n) := by
    rw [hrhob, hephi]
    exact ends_wrap_of_mem hpos (hcaptured.difference_mem hgains n)
  have hwrapXi : Ends
      (fun fuel => wrap fuel (f.xi + f.gamma *
        ((1 + gains.rho) * c.error gains n - c.previousError gains n)) (half order))
      (c.estimate gains (n + 1)) := by
    rw [hxi, hgamma, ← estimate_succ]
    exact ends_wrap_of_mem hpos (hcaptured.estimate_mem hgains n)
  obtain ⟨phi, hwrapPhi, -, ⟨wraps, hwraps⟩, -⟩ :=
    exists_wrap (by norm_num : (0 : K) < 1 / 2) (f.phi + c.estimate gains (n + 1))
  refine ⟨{ f with xi := c.estimate gains (n + 1), phi := phi, ephi := c.error gains n },
    hwrapEphi.bind (hwrapDifference.bind (hwrapXi.bind (hwrapPhi.map _))),
    ⟨hgamma, hrhob, rfl, rfl, turns - wraps, ?_⟩⟩
  have hnext := c.error_succ gains n
  dsimp only
  rw [hphi] at hwraps
  rw [phaseAt] at hwraps ⊢
  push_cast
  linear_combination hnext - hwraps

/-- The values that the filter returns for samples from some number on. -/
theorem Tracking.filterWrapped (float : ComplexFloat K) {index : Nat → ℤ}
    {input : Nat → Sample K} (hreceived : Received order c index input) (horder : 0 < order)
    (count : Nat) {n : Nat} {f : Lpf2 K} (hf : c.Tracking gains n f) :
    ∃ values last,
      Ends (fun fuel => f.filterWrapped (1 / 2) fuel (half order)
        ((List.range' n count).map fun i =>
          Pll.calcPhase order (removeModulation float order (input i)))) (values, last) ∧
      c.Tracking gains (n + count) last ∧ values.length = count ∧
      ∀ i < count, ∃ value, values[i]? = some value ∧
        ∃ turns : ℤ, value.1 = c.phaseAt (n + i) - c.error gains (n + i) + turns := by
  induction count generalizing n f with
  | zero => exact ⟨[], f, .of_some _, hf, rfl, nofun⟩
  | succ count ih =>
      obtain ⟨points, hpoints⟩ := hreceived.calcPhase c float horder n
      obtain ⟨next, hstep, hnext⟩ := hf.step hgains hcaptured hpoints horder
      obtain ⟨values, last, hrest, hlast, hlength, hvalues⟩ := ih hnext
      refine ⟨(f.phi, next.getFreqEstimate) :: values, last, ?_, ?_, congrArg Nat.succ hlength, ?_⟩
      · rw [List.range'_succ, List.map_cons]
        exact hstep.bind (hrest.map _)
      · rwa [Nat.add_right_comm] at hlast
      · intro i hi
        cases i with
        | zero => exact ⟨_, rfl, hf.phi⟩
        | succ i =>
            obtain ⟨value, hvalue, hturns⟩ := hvalues i (Nat.lt_of_succ_lt_succ hi)
            refine ⟨value, by simpa using hvalue, ?_⟩
            rwa [Nat.add_right_comm, Nat.add_assoc] at hturns

end Step

end Carrier

/-! ## The block -/

variable [LinearOrder K] {order : Nat} {c : Carrier K} {gains : Lpf2 K} {bound : K}
  {index : Nat → ℤ} {input : Nat → Sample K}

/-- A sample behind the loop is off its point by the phase error of the linear loop. -/
def Corrected (order : Nat) (c : Carrier K) (gains : Lpf2 K) (index : Nat → ℤ)
    (input : Nat → Sample K) (n : Nat) (x : Sample K) : Prop :=
  x.amplitude = (input n).amplitude ∧
    ∃ turns : ℤ, x.angle = (index n : K) / order + c.error gains n + turns

theorem corrected_calcRotation (hreceived : Carrier.Received order c index input) {n : Nat}
    {value : K} (hvalue : ∃ turns : ℤ, value = c.phaseAt n - c.error gains n + turns) :
    Corrected order c gains index input n (calcRotation (input n) value) := by
  obtain ⟨-, wraps, hangle⟩ := hreceived n
  obtain ⟨turns, rfl⟩ := hvalue
  refine ⟨rfl, wraps - turns, ?_⟩
  rw [calcRotation, hangle]
  push_cast
  ring

/-- The block between two calls, which has output one sample for each that it consumed. -/
structure Locked (order : Nat) (c : Carrier K) (gains : Lpf2 K) (index : Nat → ℤ)
    (input : Nat → Sample K) (s : Session K) : Prop where
  order_eq : s.block.order = order
  tracking : c.Tracking gains s.consumed s.block.filter
  length_out : s.out.length = s.consumed
  corrected : ∀ n < s.consumed, ∃ x, s.out[n]? = some x ∧ Corrected order c gains index input n x

omit [Field K] [LinearOrder K] in
/-- What a call works on. -/
theorem take_available (input : Nat → Sample K) (consumed num ninputItems : Nat)
    (hle : num ≤ ninputItems) :
    ((List.range ninputItems).map fun i => input (consumed + i)).take num =
      (List.range' consumed num).map input := by
  rw [← List.map_take, List.take_range, Nat.min_eq_left hle, List.range'_eq_map_range, List.map_map]
  rfl

variable [FloorRing K] [IsStrictOrderedRing K]

theorem Locked.step (float : ComplexFloat K) (hgains : gains.Stable 1)
    (hcaptured : c.Captured order gains bound) (hreceived : Carrier.Received order c index input)
    (horder : 0 < order) {s : Session K} (hs : Locked order c gains index input s) (call : Call) :
    ∃ next, Ends (fun fuel => s.step float fuel input call) next ∧
      Locked order c gains index input next ∧
      next.consumed = s.consumed + min call.noutputItems call.ninputItems := by
  obtain ⟨horderEq, htracking, hlength, hcorrected⟩ := hs
  set num := min call.noutputItems call.ninputItems with hnum
  have htaken := take_available input s.consumed num call.ninputItems
    (Nat.min_le_right _ _)
  obtain ⟨values, last, hends, hlast, hcount, hvalues⟩ :=
    htracking.filterWrapped hgains hcaptured float hreceived horder num
  set samples := (List.range' s.consumed num).map input with hsamples
  set out := List.zipWith calcRotation samples (values.map Prod.fst) with hout
  have houtLength : out.length = num := by simp [hout, hsamples, hcount]
  refine ⟨⟨{ s.block with filter := last }, s.out ++ out, s.consumed + out.length⟩, ?_,
    ⟨horderEq, houtLength ▸ hlast, ?_, ?_⟩, congrArg (s.consumed + ·) houtLength⟩
  · have hwork : Ends (fun fuel => s.block.generalWork float fuel call.noutputItems
        ((List.range call.ninputItems).map fun i => input (s.consumed + i)))
        (out, { s.block with filter := last }) := by
      simp only [Block.generalWork, List.length_map, List.length_range, pickSmaller_eq_min, ← hnum,
        htaken, List.map_map, horderEq, hsamples] at hends ⊢
      exact hends.map _
    exact hwork.map _
  · simp [hlength]
  · intro n hn
    by_cases hold : n < s.consumed
    · obtain ⟨x, hx, hcorrect⟩ := hcorrected n hold
      exact ⟨x, by rw [List.getElem?_append_left (hlength ▸ hold), hx], hcorrect⟩
    · have hnew : n - s.consumed < num := by
        dsimp only at hn
        omega
      obtain ⟨value, hvalue, hphase⟩ := hvalues _ hnew
      rw [Nat.add_sub_cancel' (Nat.le_of_not_lt hold)] at hphase
      refine ⟨_, ?_, corrected_calcRotation hreceived hphase⟩
      rw [List.getElem?_append_right (by omega), hlength]
      simp [hout, hsamples, List.getElem?_zipWith, hvalue, hnew,
        Nat.add_sub_cancel' (Nat.le_of_not_lt hold)]

omit [IsStrictOrderedRing K] in
theorem locked_start (order : Nat) (c : Carrier K) (gamma rho : K) (index : Nat → ℤ)
    (input : Nat → Sample K) :
    Locked order c (Lpf2.make gamma rho) index input
      (Session.start ⟨order, Lpf2.make gamma rho⟩) where
  order_eq := rfl
  tracking :=
    { gamma := rfl
      rhob := rfl
      xi := rfl
      ephi := rfl
      phi := ⟨0, by simp [Session.start, Lpf2.make, Carrier.phaseAt, Carrier.error,
        SecondOrder.sequence]⟩ }
  length_out := rfl
  corrected := fun n hn => absurd hn (Nat.not_lt_zero n)

/-- The loop in every run of its calls, which is of no importance for what happens to a sample. -/
theorem exists_run_locked (float : ComplexFloat K) (horder : 0 < order) {gamma rho : K}
    (hgains : (Lpf2.make gamma rho).Stable 1)
    (hcaptured : c.Captured order (Lpf2.make gamma rho) bound)
    (hreceived : Carrier.Received order c index input) (calls : List Call) :
    ∃ last, Ends (fun fuel => Transition.run (fun s call => s.step float fuel input call)
        (Session.start ⟨order, Lpf2.make gamma rho⟩) calls) last ∧
      Locked order c (Lpf2.make gamma rho) index input last ∧
      last.consumed = (calls.map fun call => min call.noutputItems call.ninputItems).sum := by
  refine exists_ends_run
    (fun past s => Locked order c (Lpf2.make gamma rho) index input s ∧
      s.consumed = (past.map fun call => min call.noutputItems call.ninputItems).sum)
    ?_ calls ⟨locked_start order c gamma rho index input, rfl⟩
  rintro past s call ⟨hs, hconsumed⟩
  obtain ⟨next, hnext, hlocked, hcount⟩ :=
    hs.step float hgains hcaptured hreceived horder call
  exact ⟨next, hnext, hlocked, by simp [hcount, hconsumed]⟩

/-- The phase errors and the errors of the frequency estimates go to zero. -/
theorem exists_error_lt (hgains : gains.Stable 1) (c : Carrier K) {small : K}
    (hsmall : 0 < small) :
    ∃ N, ∀ n ≥ N, |c.error gains n| < small ∧ |c.estimate gains n - c.frequency| < small := by
  obtain ⟨N, hN⟩ := (Carrier.stable hgains).exists_abs_sequence_lt c.phase (c.second gains)
    (half_pos hsmall)
  refine ⟨N + 1, fun n hn => ?_⟩
  obtain ⟨n, rfl⟩ := Nat.exists_eq_succ_of_ne_zero (Nat.ne_zero_of_lt hn)
  obtain ⟨hlow, hhigh⟩ := abs_lt.mp (hN n (by omega))
  obtain ⟨hlowNext, hhighNext⟩ := abs_lt.mp (hN (n + 1) (by omega))
  have hdifference : c.estimate gains (n + 1) - c.frequency =
      c.error gains n - c.error gains (n + 1) := by
    rw [Carrier.estimate]
    ring
  change -(small / 2) < c.error gains n at hlow
  change c.error gains n < small / 2 at hhigh
  change -(small / 2) < c.error gains (n + 1) at hlowNext
  change c.error gains (n + 1) < small / 2 at hhighNext
  rw [Nat.succ_eq_add_one, hdifference, abs_lt, abs_lt]
  refine ⟨⟨?_, ?_⟩, ?_, ?_⟩ <;> linarith

/-- The loop with the gains of its constructor, in every run of its calls: the carrier is gone up
to phase errors that do not depend on the calls, are bounded, and go to zero, and the frequency
estimate goes to the frequency of the carrier. -/
theorem pll_locks (float : ComplexFloat K) {loopBandwidth : K} (hpos : 0 < loopBandwidth)
    (hlt : loopBandwidth < 3 / 4) (horder : 0 < order)
    (hcaptured : c.Captured order (Block.make order loopBandwidth).filter bound)
    (hreceived : Carrier.Received order c index input) :
    (∀ calls : List Call, ∃ last,
      Ends (fun fuel => Transition.run (fun s call => s.step float fuel input call)
        (Session.start (Block.make order loopBandwidth)) calls) last ∧
      last.consumed = (calls.map fun call => min call.noutputItems call.ninputItems).sum ∧
      last.out.length = last.consumed ∧
      last.block.filter.getFreqEstimate =
        c.estimate (Block.make order loopBandwidth).filter last.consumed ∧
      ∀ n < last.consumed, ∃ x, last.out[n]? = some x ∧
        Corrected order c (Block.make order loopBandwidth).filter index input n x) ∧
    (∀ n, |c.error (Block.make order loopBandwidth).filter n| ≤ bound) ∧
    ∀ small > 0, ∃ N, ∀ n ≥ N, |c.error (Block.make order loopBandwidth).filter n| < small ∧
      |c.estimate (Block.make order loopBandwidth).filter n - c.frequency| < small := by
  have hgains : (Block.make order loopBandwidth).filter.Stable 1 :=
    (designable_default hpos hlt).stable one_pos
  refine ⟨fun calls => ?_, hcaptured.abs_error_le hgains, fun small hsmall =>
    exists_error_lt hgains c hsmall⟩
  obtain ⟨last, hends, hlocked, hconsumed⟩ :=
    exists_run_locked float horder hgains hcaptured hreceived calls
  exact ⟨last, hends, hconsumed, hlocked.length_out, hlocked.tracking.xi, hlocked.corrected⟩

omit [FloorRing K] in
/-- The gains for a quarter as loop bandwidth. -/
theorem rho_quarter (order : Nat) : 2 / 7 ≤ (Block.make order (1 / 4 : K)).filter.rho ∧
    (Block.make order (1 / 4 : K)).filter.rho ≤ 1 / 2 := by
  have hconvex := (designable_default (by norm_num : 0 < (1 / 4 : K)) (by norm_num)).convex
  have hpos := hconvex.newtonRho_pos 9
  have hle := hconvex.newtonRho_le 9
  have hvalue := hconvex.newtonF_newtonRho_nonneg 9
  change 2 / 7 ≤ (coefficients (1 / 4 : K) (1 / 2)).newtonRho 10 ∧
    (coefficients (1 / 4 : K) (1 / 2)).newtonRho 10 ≤ 1 / 2
  generalize (coefficients (1 / 4 : K) (1 / 2)).newtonRho 10 = rho at *
  norm_num [coefficients] at hle
  norm_num [coefficients, Coefficients.newtonF, rhoNewtonF] at hvalue
  have hsquare : rho ^ 2 ≤ 1 / 2 * rho := by nlinarith
  have hcube : rho ^ 3 ≤ 1 / 4 * rho := by nlinarith
  constructor <;> linarith

omit [FloorRing K] in
/-- A loop bandwidth of a quarter captures every carrier whose phase and frequency are less than a
fiftieth of half a point distance. -/
theorem captured_quarter {small : K} (hphase : |c.phase| ≤ small)
    (hfrequency : |c.frequency| ≤ small) (hsmall : 50 * small < Carrier.half order) :
    c.Captured order (Block.make order (1 / 4 : K)).filter (20 * small) := by
  obtain ⟨hlow, hhigh⟩ := rho_quarter (K := K) order
  have hdesign := designable_default (by norm_num : 0 < (1 / 4 : K)) (by norm_num)
  have hstable : (Block.make order (1 / 4 : K)).filter.Stable 1 := hdesign.stable one_pos
  have hdamping : dampingSquared 1 (Block.make order (1 / 4 : K)).filter = 1 / 2 :=
    dampingSquared_make one_pos (hdesign.convex.newtonRho_pos 9)
  have hnonneg : 0 ≤ small := (abs_nonneg _).trans hphase
  generalize (Block.make order (1 / 4 : K)).filter = f at *
  obtain ⟨-, hgamma, hle, -⟩ := hstable
  rw [mul_one] at hgamma hle
  rw [dampingSquared, mul_one, Nat.cast_ofNat, div_eq_iff (by linarith)] at hdamping
  have hgain : f.gamma * (1 + f.rho) ≤ 3 / 2 := by nlinarith
  have hgainPos : 0 ≤ f.gamma * (1 + f.rho) := mul_nonneg hgamma.le (by linarith)
  have hproduct : 32 / 441 ≤ f.gamma * f.rho := by
    have hgammaLow : 16 / 63 ≤ f.gamma := by nlinarith
    nlinarith
  refine ⟨by linarith, ?_, ?_, by linarith⟩
  · have hratio : SecondOrder.ratio (Carrier.p f) (Carrier.q f) * (2 - f.gamma) =
        2 - f.gamma * (1 + f.rho) := by
      have hpos : 0 < 2 - f.gamma := by linarith
      rw [SecondOrder.ratio, Carrier.p, Carrier.q, Nat.cast_ofNat]
      field_simp
      ring
    have hsecond : |c.second f| ≤ 2 * small := by
      have hfactor : |1 - f.gamma * (1 + f.rho)| ≤ 1 := abs_le.mpr ⟨by linarith, by linarith⟩
      have hscaled : |(1 - f.gamma * (1 + f.rho)) * c.phase| ≤ small := by
        rw [abs_mul]
        exact (mul_le_of_le_one_left (abs_nonneg _) hfactor).trans hphase
      calc |c.second f|
        _ = |(1 - f.gamma * (1 + f.rho)) * c.phase + c.frequency| := by
            rw [Carrier.second]
            ring_nf
        _ ≤ small + small := (abs_add_le _ _).trans (add_le_add hscaled hfrequency)
        _ = 2 * small := (two_mul small).symm
    simp only [SecondOrder.energy]
    generalize SecondOrder.ratio (Carrier.p f) (Carrier.q f) = r at *
    have hratioNonneg : 0 ≤ r := by nlinarith
    have hratioLess : r ≤ 425 / 441 := by nlinarith
    have hoff : |c.phase - r * c.second f| ≤ 3 * small := by
      have hscaled : |r * c.second f| ≤ 2 * small := by
        rw [abs_mul, abs_of_nonneg hratioNonneg]
        exact (mul_le_of_le_one_left (abs_nonneg _) (by linarith)).trans hsecond
      linarith [abs_sub c.phase (r * c.second f)]
    have hoffSquare := sq_le_sq' (abs_le.mp hoff).1 (abs_le.mp hoff).2
    have hsecondSquare := sq_le_sq' (abs_le.mp hsecond).1 (abs_le.mp hsecond).2
    have hrest : 16 / 441 ≤ 1 - r ^ 2 := by nlinarith
    have hfirstPart : (1 - r ^ 2) * c.second f ^ 2 ≤ c.second f ^ 2 :=
      mul_le_of_le_one_left (sq_nonneg _) (sub_le_self 1 (sq_nonneg r))
    have hroom := mul_le_mul_of_nonneg_right hrest (sq_nonneg (20 * small))
    linarith [sq_nonneg small]
  · have hscaled := mul_le_mul_of_nonneg_right hhigh hnonneg
    linarith

/-- Flush what is outside the range to zero. -/
def ComplexFloat.flush : ComplexFloat ℚ where
  store := fun x =>
    if Format.binary32.leastNormal ≤ x.amplitude ∧ x.amplitude ≤ Format.binary32.greatest then x
    else ⟨0, 0⟩
  store_eq := fun _ hlow hhigh => if_pos ⟨hlow, hhigh⟩

/-- The alternating points of BPSK with a phase and a frequency, in two calls. -/
theorem pll_locks_bpsk :
    ∃ last, Ends (fun fuel => Transition.run
        (fun s call => s.step .flush fuel
          (fun n => ⟨1, (n : ℚ) / 2 + (1 / 300 + n * (1 / 500))⟩) call)
        (Session.start (Block.make 2 (1 / 4 : ℚ))) [⟨4, 3⟩, ⟨2, 5⟩]) last ∧
      last.consumed = 5 := by
  have hreceived : Carrier.Received 2 ⟨1 / 300, 1 / 500⟩ (fun n => n)
      (fun n => ⟨1, (n : ℚ) / 2 + (1 / 300 + n * (1 / 500))⟩) :=
    fun n => ⟨storable_one 2, 0, by simp [Carrier.phaseAt]⟩
  have hcaptured : Carrier.Captured 2 (⟨1 / 300, 1 / 500⟩ : Carrier ℚ)
      (Block.make 2 (1 / 4)).filter (20 * (1 / 250)) :=
    captured_quarter (by norm_num [abs_of_pos]) (by norm_num [abs_of_pos])
      (by norm_num [Carrier.half])
  obtain ⟨hruns, -⟩ := pll_locks .flush (by norm_num) (by norm_num) Nat.two_pos hcaptured hreceived
  obtain ⟨last, hends, hconsumed, -⟩ := hruns [⟨4, 3⟩, ⟨2, 5⟩]
  exact ⟨last, hends, hconsumed⟩

end GrCcsds.Pll
