import GrCcsds.Orbits.RangeInterpolator
import Mathlib.Tactic.Positivity
import Mathlib.Tactic.Ring

/-! # The values behind a start call

A call of `computeDelta` continues the samples of the previous one, so the sizes
of the calls do not matter. The counter of support points follows the position
of the samples as long as both start at zero, which is the case for a start call
that no sample has preceded.
-/

namespace GrCcsds.Orbits

open Foundation Foundation.PiecewiseLinear

variable {K : Type} [Field K] [LinearOrder K] {cfg : Config K}

namespace RangeInterpolator

theorem samples_cons (cfg : Config K) (t : Nat) (rest : List Nat) (s : RangeInterpolator K) :
    (samples cfg (t :: rest) s).1 =
      (s.sample cfg t).1 :: (samples cfg rest (s.sample cfg t).2).1 := rfl

theorem samples_append (cfg : Config K) (first second : List Nat) (s : RangeInterpolator K) :
    samples cfg (first ++ second) s =
      ((samples cfg first s).1 ++ (samples cfg second (samples cfg first s).2).1,
        (samples cfg second (samples cfg first s).2).2) := by
  induction first generalizing s with
  | nil => rfl
  | cons t rest ih => simp only [List.cons_append, samples, ih]

/-- The counter of samples is only changed at the end of a call. -/
theorem sample_i (s : RangeInterpolator K) (i t : Nat) :
    { s with i := i }.sample cfg t = ((s.sample cfg t).1, { (s.sample cfg t).2 with i := i }) := by
  unfold sample
  dsimp only
  split <;> rfl

theorem samples_i (cfg : Config K) (indices : List Nat) (s : RangeInterpolator K) (i : Nat) :
    samples cfg indices { s with i := i } =
      ((samples cfg indices s).1, { (samples cfg indices s).2 with i := i }) := by
  induction indices generalizing s with
  | nil => rfl
  | cons t rest ih => simp only [samples, sample_i, ih]

theorem sample_init (s : RangeInterpolator K) (t : Nat) :
    (s.sample cfg t).2.init = s.init := by
  unfold sample
  dsimp only
  split <;> rfl

theorem samples_init (cfg : Config K) (indices : List Nat) (s : RangeInterpolator K) :
    (samples cfg indices s).2.init = s.init := by
  induction indices generalizing s with
  | nil => rfl
  | cons t rest ih => exact (ih _).trans (sample_init s t)

/-- The first sample behind a start call, for a range that grows with the time. -/
theorem sample_setStartTime_id (cfg : Config K) (s : RangeInterpolator K) (t : Nat) :
    ((s.setStartTime cfg id).sample cfg t).1 = cfg.kTcMin * ((t : K) * cfg.kTsPerTc) := by
  unfold RangeInterpolator.sample
  dsimp only
  split
  · simp only [setStartTime, RangeInterpolator.update, getRangeAt, id_eq]
    push_cast
    ring
  · simp [setStartTime]

end RangeInterpolator

/-- The support points belong to the position of the last sample before `t`. -/
structure RangeInterpolator.Follows [FloorSemiring K] (cfg : Config K) (range : K → K) (t : Nat)
    (s : RangeInterpolator K) : Prop where
  rangeSgp4 : s.rangeSgp4 = range
  j : s.j = ⌊((t - 1 : Nat) : K) * cfg.kTsPerTc⌋₊
  range0 : s.range0 = range 0
  rangeLeft : s.rangeLeft = supportRange cfg range s.j
  rangeRight : s.rangeRight = supportRange cfg range (s.j + 1)
  m : s.m = s.rangeRight - s.rangeLeft

/-- Sample `t` interpolates the range of the start time at its position. -/
def expected [FloorSemiring K] (cfg : Config K) (range : K → K) (t : Nat) : K :=
  interpolate (supportRange cfg range) ((t : K) * cfg.kTsPerTc)

section Follows

variable [IsStrictOrderedRing K] [FloorSemiring K] {range : K → K} {t : Nat}
  {s : RangeInterpolator K}

namespace RangeInterpolator

theorem follows_setStartTime (cfg : Config K) (range : K → K) (s : RangeInterpolator K) :
    (s.setStartTime cfg range).Follows cfg range 0 where
  rangeSgp4 := rfl
  j := by simp [setStartTime]
  range0 := rfl
  rangeLeft := by simp [setStartTime, supportRange]
  rangeRight := by simp [setStartTime, supportRange]
  m := rfl

omit [IsStrictOrderedRing K] in
theorem Follows.update (hfollows : s.Follows cfg range t)
    (hfloor : ⌊(t : K) * cfg.kTsPerTc⌋₊ = s.j + 1) :
    (s.update cfg).Follows cfg range (t + 1) where
  rangeSgp4 := hfollows.rangeSgp4
  j := hfloor.symm
  range0 := hfollows.range0
  rangeLeft := hfollows.rangeRight
  rangeRight := by
    change s.rangeSgp4 _ - s.range0 = _
    rw [hfollows.rangeSgp4, hfollows.range0]
    rfl
  m := rfl

/-- A sample at most one support point further is interpolated between the right ones. -/
theorem Follows.sample (hpos : 0 < cfg.kTsPerTc) (hle : cfg.kTsPerTc ≤ 1)
    (hfollows : s.Follows cfg range t) :
    (s.sample cfg t).1 = expected cfg range t ∧
      (s.sample cfg t).2.Follows cfg range (t + 1) := by
  have hbefore : (0 : K) ≤ ((t - 1 : Nat) : K) * cfg.kTsPerTc := by positivity
  have hmono : ((t - 1 : Nat) : K) * cfg.kTsPerTc ≤ (t : K) * cfg.kTsPerTc :=
    mul_le_mul_of_nonneg_right (Nat.cast_le.mpr (Nat.sub_le t 1)) hpos.le
  have hstep : (t : K) * cfg.kTsPerTc ≤ ((t - 1 : Nat) : K) * cfg.kTsPerTc + 1 := by
    have hnext : (t : K) ≤ ((t - 1 : Nat) : K) + 1 := by
      exact_mod_cast Nat.le_add_of_sub_le le_rfl
    have hscaled := mul_le_mul_of_nonneg_right hnext hpos.le
    rw [add_mul, one_mul] at hscaled
    linarith
  have hj := hfollows.j
  unfold RangeInterpolator.sample expected
  dsimp only
  split
  next hge =>
    rw [hj] at hge
    have hfloor := floor_eq_of_le_sub hstep hge
    rw [← hj] at hfloor
    have hnext := hfollows.update hfloor
    have hfraction : (t : K) * cfg.kTsPerTc - (s.j : K) - 1 =
        (t : K) * cfg.kTsPerTc - ((s.j + 1 : Nat) : K) := by
      push_cast
      ring
    refine ⟨?_, hnext⟩
    rw [interpolate_of_floor_eq _ hfloor, hnext.m, hnext.rangeRight, hnext.rangeLeft, hfraction]
    rfl
  next hlt =>
    rw [hj, ge_iff_le, not_le] at hlt
    have hfloor := floor_eq_of_sub_lt hbefore hmono hlt
    rw [← hj] at hfloor
    refine ⟨?_, ⟨hfollows.rangeSgp4, hfloor.symm, hfollows.range0, hfollows.rangeLeft,
      hfollows.rangeRight, hfollows.m⟩⟩
    rw [interpolate_of_floor_eq _ hfloor, hfollows.m, hfollows.rangeRight, hfollows.rangeLeft]

theorem Follows.samples (hpos : 0 < cfg.kTsPerTc) (hle : cfg.kTsPerTc ≤ 1)
    (hfollows : s.Follows cfg range t) (count : Nat) :
    (samples cfg (List.range' t count) s).1 =
      (List.range' t count).map (expected cfg range) := by
  induction count generalizing t s with
  | zero => rfl
  | succ count ih =>
      obtain ⟨hvalue, hnext⟩ := hfollows.sample hpos hle
      rw [List.range'_succ, List.map_cons, samples_cons, hvalue, ih hnext]

end RangeInterpolator

end Follows

namespace Session

open RangeInterpolator

/-- The sizes of the calls do not matter. -/
theorem run_computeDelta {s : Session K} (hinit : s.interpolator.init = true)
    (sizes : List Nat) :
    Transition.run (step cfg) s (sizes.map Call.computeDelta) = some
      { interpolator :=
          { (samples cfg (List.range' s.interpolator.i sizes.sum) s.interpolator).2 with
            i := s.interpolator.i + sizes.sum }
        values := s.values ++
          (samples cfg (List.range' s.interpolator.i sizes.sum) s.interpolator).1 } := by
  induction sizes generalizing s with
  | nil => simp [Transition.run, samples]
  | cons numOut rest ih =>
      have hlast := samples_init cfg (List.range' s.interpolator.i numOut) s.interpolator
      rw [List.map_cons, Transition.run, step, computeDelta, if_pos hinit, Option.map_some,
        Option.bind_some, ih (hlast.trans hinit), samples_i, List.sum_cons,
        ← List.range'_append_1, samples_append, List.append_assoc, Nat.add_assoc]

theorem i_of_run {calls : List (Call K)} {s last : Session K}
    (hrun : Transition.run (step cfg) s calls = some last) :
    last.interpolator.i = s.interpolator.i + (calls.map Call.numOut).sum := by
  induction calls generalizing s with
  | nil =>
      cases hrun
      rfl
  | cons call rest ih =>
      obtain ⟨next, hstep, hrest⟩ := Option.bind_eq_some_iff.mp hrun
      rw [ih hrest, List.map_cons, List.sum_cons, ← Nat.add_assoc]
      congr 1
      cases call with
      | setStartTime range =>
          cases hstep
          rfl
      | computeDelta numOut =>
          obtain ⟨result, hdelta, rfl⟩ := Option.map_eq_some_iff.mp hstep
          unfold computeDelta at hdelta
          split at hdelta
          next =>
            cases hdelta
            rfl
          next => cases hdelta

variable [IsStrictOrderedRing K] [FloorSemiring K]

omit [IsStrictOrderedRing K] in
theorem kTcMin_ne_zero (hpos : 0 < cfg.kTsPerTc) : cfg.kTcMin ≠ 0 := by
  have hrate : cfg.computeRate ≠ 0 := by
    intro hrate
    simp [Config.kTsPerTc, hrate] at hpos
  exact one_div_ne_zero (mul_ne_zero hrate (Nat.cast_ne_zero.mpr (by decide)))

/-- The values behind the last start call interpolate the range from this start time, for every
range, if and only if no sample was computed before the call, or none is computed after it. -/
theorem restarted_iff (hpos : 0 < cfg.kTsPerTc) (hle : cfg.kTsPerTc ≤ 1)
    {constructed : RangeInterpolator K} {before : List (Call K)} {s : Session K}
    (hrun : Transition.run (step cfg) (construct constructed) before = some s)
    (sizes : List Nat) :
    (∀ range : K → K, ∃ last,
      Transition.run (step cfg) s (.setStartTime range :: sizes.map .computeDelta) = some last ∧
        last.values = (List.range sizes.sum).map (expected cfg range)) ↔
      (before.map Call.numOut).sum = 0 ∨ sizes.sum = 0 := by
  have hcount : s.interpolator.i = (before.map Call.numOut).sum :=
    (i_of_run hrun).trans (Nat.zero_add _)
  have hlast (range : K → K) :
      ∃ last, Transition.run (step cfg) s (.setStartTime range :: sizes.map .computeDelta) =
          some last ∧
        last.values = (samples cfg (List.range' s.interpolator.i sizes.sum)
          (s.interpolator.setStartTime cfg range)).1 :=
    ⟨_, run_computeDelta (s := ⟨s.interpolator.setStartTime cfg range, []⟩) rfl sizes, rfl⟩
  rw [← hcount]
  constructor
  · intro hall
    by_contra hnot
    obtain ⟨hi, hsizes⟩ := not_or.mp hnot
    obtain ⟨last, hcalls, hvalues⟩ := hall id
    obtain ⟨same, hsame, hsamples⟩ := hlast id
    cases hsame.symm.trans hcalls
    obtain ⟨count, hsum⟩ := Nat.exists_eq_succ_of_ne_zero hsizes
    rw [hvalues, hsum, Nat.succ_eq_add_one, List.range'_succ, samples_cons,
      sample_setStartTime_id, List.range_succ_eq_map, List.map_cons] at hsamples
    -- the first value is not zero although nothing has moved since the start time
    have hfirst := (List.cons.inj hsamples).1
    have hzero : expected cfg (id : K → K) 0 = 0 := by simp [expected, supportRange]
    have hposition : cfg.kTcMin * ((s.interpolator.i : K) * cfg.kTsPerTc) ≠ 0 :=
      mul_ne_zero (kTcMin_ne_zero hpos) (mul_ne_zero (Nat.cast_ne_zero.mpr hi) hpos.ne')
    exact hposition (hfirst.symm.trans hzero)
  · intro hcases range
    obtain ⟨last, hcalls, hsamples⟩ := hlast range
    refine ⟨last, hcalls, ?_⟩
    rw [hsamples, List.range_eq_range']
    rcases hcases with hi | hsizes
    · rw [hi]
      exact (follows_setStartTime cfg range _).samples hpos hle _
    · rw [hsizes]
      rfl

/-- A support point every second sample. -/
def everySecond : Config ℚ where
  sampRateOut := 200
  computeRate := 100

/-- Members without a value. -/
def unset : RangeInterpolator ℚ where
  rangeSgp4 := fun _ => 0
  i := 0
  j := 0
  init := false
  rangeLeft := 0
  rangeRight := 0
  range0 := 0
  m := 0

theorem restarted_iff_at_once : ∃ last,
    Transition.run (step everySecond) (construct unset)
        [.setStartTime id, .computeDelta 3, .computeDelta 2] = some last ∧
      last.values = (List.range 5).map (expected everySecond id) := by
  have hrun : Transition.run (step everySecond) (construct unset) [] = some (construct unset) := rfl
  have hall := (restarted_iff (by decide +kernel) (by decide +kernel) hrun [3, 2]).mpr (Or.inl rfl)
  exact hall id

/-- The first value after a restart is not zero if a sample was computed before. -/
theorem restart_keeps_position :
    ((Transition.run (step everySecond) (construct unset)
      [.setStartTime id, .computeDelta 1, .setStartTime id, .computeDelta 1]).map
        Session.values) = some [1 / 12000] ∧
    ¬ ∃ last, Transition.run (step everySecond) (construct unset)
        [.setStartTime id, .computeDelta 1, .setStartTime id, .computeDelta 1] = some last ∧
      last.values = (List.range 1).map (expected everySecond id) := by
  have hvalues : ((Transition.run (step everySecond) (construct unset)
      [.setStartTime id, .computeDelta 1, .setStartTime id, .computeDelta 1]).map
        Session.values) = some [1 / 12000] := by
    decide +kernel
  refine ⟨hvalues, ?_⟩
  rintro ⟨last, hrun, hlast⟩
  rw [hrun, Option.map_some, hlast, Option.some.injEq] at hvalues
  have hzero : expected everySecond id 0 = 1 / 12000 := (List.cons.inj hvalues).1
  simp [expected, supportRange] at hzero

end Session

end GrCcsds.Orbits
