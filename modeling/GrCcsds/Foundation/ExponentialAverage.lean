import Mathlib.Algebra.Order.Archimedean.Basic
import Mathlib.Algebra.Order.Field.Basic
import Mathlib.Tactic.Linarith
import Mathlib.Tactic.Positivity
import Mathlib.Tactic.Ring

/-! # Exponential averages

An average that takes in one value after another, each with the same share. It
stays between bounds of its values, it forgets where it started, and its square
is below the average of the squares by a part that only time takes away.
-/

namespace Foundation.ExponentialAverage

variable {K : Type*} [Field K]

def step (share average value : K) : K := share * value + (1 - share) * average

/-- The average after all values. -/
def run (share start : K) (values : List K) : K := values.foldl (step share) start

@[simp] theorem run_nil (share start : K) : run share start [] = start := rfl

@[simp] theorem run_cons (share start value : K) (rest : List K) :
    run share start (value :: rest) = run share (step share start value) rest := rfl

theorem run_append (share start : K) (first second : List K) :
    run share start (first ++ second) = run share (run share start first) second :=
  List.foldl_append

/-- What the average is away from a number shrinks with every step towards it. -/
theorem step_sub (share average value bound : K) :
    step share average value - bound =
      share * (value - bound) + (1 - share) * (average - bound) := by
  rw [step]
  ring

/-- The average of the opposite values. -/
theorem run_map_neg (share start : K) (values : List K) :
    run share (-start) (values.map fun value => -value) = -run share start values := by
  induction values generalizing start with
  | nil => rfl
  | cons value rest ih =>
      have hstep : step share (-start) (-value) = -step share start value := by
        simp only [step]
        ring
      rw [List.map_cons, run_cons, hstep, ih, run_cons]

variable [LinearOrder K]

/-- A part of the whole, but neither nothing nor everything. -/
structure IsShare (share : K) : Prop where
  pos : 0 < share
  lt_one : share < 1

variable [IsStrictOrderedRing K] {share : K}

namespace IsShare

theorem rest_pos (hshare : IsShare share) : 0 < 1 - share := sub_pos.mpr hshare.lt_one

theorem rest_lt_one (hshare : IsShare share) : 1 - share < 1 := sub_lt_self 1 hshare.pos

/-- After enough steps next to nothing is left of a start. -/
theorem exists_pow_mul_lt [Archimedean K] (hshare : IsShare share) (start : K) {margin : K}
    (hmargin : 0 < margin) : ∃ n, ∀ k ≥ n, (1 - share) ^ k * |start| < margin := by
  obtain ⟨n, hn⟩ := exists_pow_lt_of_lt_one
    (div_pos hmargin (add_pos_of_nonneg_of_pos (abs_nonneg start) one_pos)) hshare.rest_lt_one
  refine ⟨n, fun k hk => ?_⟩
  have hpow : (1 - share) ^ k ≤ (1 - share) ^ n :=
    pow_le_pow_of_le_one hshare.rest_pos.le hshare.rest_lt_one.le hk
  have hone : 0 < |start| + 1 := add_pos_of_nonneg_of_pos (abs_nonneg start) one_pos
  calc (1 - share) ^ k * |start|
    _ ≤ (1 - share) ^ n * (|start| + 1) :=
        mul_le_mul hpow (by linarith) (abs_nonneg start) (pow_nonneg hshare.rest_pos.le n)
    _ < margin := (lt_div_iff₀ hone).mp hn

end IsShare

theorem step_nonneg (hshare : IsShare share) {average value : K} (haverage : 0 ≤ average)
    (hvalue : 0 ≤ value) : 0 ≤ step share average value :=
  add_nonneg (mul_nonneg hshare.pos.le hvalue) (mul_nonneg hshare.rest_pos.le haverage)

/-- Values up to a bound bring the average down to it. -/
theorem run_sub_le (hshare : IsShare share) {bound : K} {values : List K}
    (hvalues : ∀ value ∈ values, value ≤ bound) (start : K) :
    run share start values - bound ≤ (1 - share) ^ values.length * (start - bound) := by
  induction values generalizing start with
  | nil => simp
  | cons value rest ih =>
      obtain ⟨hvalue, hrest⟩ := List.forall_mem_cons.mp hvalues
      have hstep : step share start value - bound ≤ (1 - share) * (start - bound) := by
        rw [step_sub]
        have hpart := mul_nonneg hshare.pos.le (sub_nonneg.mpr hvalue)
        linarith
      calc run share start (value :: rest) - bound
        _ ≤ (1 - share) ^ rest.length * (step share start value - bound) := ih hrest _
        _ ≤ (1 - share) ^ rest.length * ((1 - share) * (start - bound)) :=
            mul_le_mul_of_nonneg_left hstep (pow_nonneg hshare.rest_pos.le _)
        _ = (1 - share) ^ (value :: rest).length * (start - bound) := by
            rw [List.length_cons, pow_succ]
            ring

/-- Values from a bound on bring the average up to it. -/
theorem le_run_sub (hshare : IsShare share) {bound : K} {values : List K}
    (hvalues : ∀ value ∈ values, bound ≤ value) (start : K) :
    (1 - share) ^ values.length * (start - bound) ≤ run share start values - bound := by
  have hbelow : ∀ value ∈ values.map fun value => -value, value ≤ -bound := by
    rintro _ hmem
    obtain ⟨value, hvalue, rfl⟩ := List.mem_map.mp hmem
    exact neg_le_neg (hvalues value hvalue)
  have hneg := run_sub_le hshare hbelow (-start)
  rw [run_map_neg, List.length_map] at hneg
  have hfactor : (1 - share) ^ values.length * (-start - -bound) =
      -((1 - share) ^ values.length * (start - bound)) := by ring
  linarith

theorem run_nonneg (hshare : IsShare share) {values : List K}
    (hvalues : ∀ value ∈ values, 0 ≤ value) {start : K} (hstart : 0 ≤ start) :
    0 ≤ run share start values := by
  have hle := le_run_sub hshare hvalues start
  rw [sub_zero, sub_zero] at hle
  exact (mul_nonneg (pow_nonneg hshare.rest_pos.le _) hstart).trans hle

/-- The average is positive as soon as one of the values is. -/
theorem run_pos_iff (hshare : IsShare share) {values : List K}
    (hvalues : ∀ value ∈ values, 0 ≤ value) {start : K} (hstart : 0 ≤ start) :
    0 < run share start values ↔ 0 < start ∨ ∃ value ∈ values, 0 < value := by
  induction values generalizing start with
  | nil => simp
  | cons value rest ih =>
      obtain ⟨hvalue, hrest⟩ := List.forall_mem_cons.mp hvalues
      have hstep : 0 < step share start value ↔ 0 < start ∨ 0 < value := by
        constructor
        · intro hpos
          by_contra hzero
          obtain ⟨hzeroStart, hzeroValue⟩ := not_or.mp hzero
          rw [step, le_antisymm (not_lt.mp hzeroStart) hstart,
            le_antisymm (not_lt.mp hzeroValue) hvalue, mul_zero, mul_zero, add_zero] at hpos
          exact lt_irrefl _ hpos
        · rintro (hpos | hpos)
          · exact add_pos_of_nonneg_of_pos (mul_nonneg hshare.pos.le hvalue)
              (mul_pos hshare.rest_pos hpos)
          · exact add_pos_of_pos_of_nonneg (mul_pos hshare.pos hpos)
              (mul_nonneg hshare.rest_pos.le hstart)
      rw [run_cons, ih hrest (step_nonneg hshare hstart hvalue), hstep, or_assoc,
        List.exists_mem_cons_iff]

/-- The step of the inequality of Cauchy and Schwarz. -/
theorem step_sq_le (hshare : IsShare share) {weight average squares : K} (hweight : 0 ≤ weight)
    (hsquares : 0 ≤ squares) (hle : average ^ 2 ≤ weight * squares) (value : K) :
    step share average value ^ 2 ≤
      step share weight 1 * step share squares (value ^ 2) := by
  have hmixed : 0 ≤ squares + weight * value ^ 2 - 2 * value * average := by
    rcases hweight.eq_or_lt with rfl | hpos
    · have hzero : average = 0 := by
        rw [zero_mul] at hle
        exact pow_eq_zero_iff two_ne_zero |>.mp (le_antisymm hle (sq_nonneg average))
      rw [hzero]
      simpa using hsquares
    · refine nonneg_of_mul_nonneg_right (a := weight) ?_ hpos
      have hsquare := sq_nonneg (average - weight * value)
      linarith [hle, hsquare,
        show weight * (squares + weight * value ^ 2 - 2 * value * average) =
          (average - weight * value) ^ 2 + (weight * squares - average ^ 2) by ring]
  have hdifference : step share weight 1 * step share squares (value ^ 2) -
      step share average value ^ 2 =
        share * (1 - share) * (squares + weight * value ^ 2 - 2 * value * average) +
          (1 - share) ^ 2 * (weight * squares - average ^ 2) := by
    simp only [step]
    ring
  have hfirst := mul_nonneg (mul_nonneg hshare.pos.le hshare.rest_pos.le) hmixed
  have hsecond := mul_nonneg (sq_nonneg (1 - share)) (sub_nonneg.mpr hle)
  linarith

/-- The square of an average from zero on is below the average of the squares, by a part that
shrinks with every step but never vanishes. -/
theorem run_sq_le (hshare : IsShare share) (values : List K) :
    run share 0 values ^ 2 ≤ (1 - (1 - share) ^ values.length) *
      run share 0 (values.map fun value => value ^ 2) := by
  suffices hgeneral : ∀ weight average squares : K, 0 ≤ weight → 0 ≤ squares →
      average ^ 2 ≤ weight * squares →
      run share average values ^ 2 ≤ run share weight (List.replicate values.length 1) *
        run share squares (values.map fun value => value ^ 2) by
    have hweight : run share 0 (List.replicate values.length 1) =
        1 - (1 - share) ^ values.length := by
      have hones : ∀ value ∈ List.replicate values.length (1 : K), value = 1 :=
        fun _ hmem => List.eq_of_mem_replicate hmem
      have hle := run_sub_le hshare (fun value hmem => (hones value hmem).le) 0
      have hge := le_run_sub hshare (fun value hmem => (hones value hmem).ge) 0
      rw [List.length_replicate] at hle hge
      linarith
    rw [← hweight]
    exact hgeneral 0 0 0 le_rfl le_rfl (by simp)
  induction values with
  | nil => exact fun _ _ _ _ _ hle => hle
  | cons value rest ih =>
      intro weight average squares hweight hsquares hle
      exact ih _ _ _ (step_nonneg hshare hweight zero_le_one)
        (step_nonneg hshare hsquares (sq_nonneg value))
        (step_sq_le hshare hweight hsquares hle value)

end Foundation.ExponentialAverage
