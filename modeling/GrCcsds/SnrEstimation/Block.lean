import GrCcsds.SnrEstimation.Estimator
import Mathlib.Algebra.BigOperators.Group.List.Basic
import Mathlib.Analysis.Real.Sqrt
import Mathlib.Analysis.SpecialFunctions.Log.Base

/-! # The SNR estimation block

`snr_estimation_cf` puts out the SNR of its estimator after every
`d_DECIMATION` samples. However the scheduler cuts the stream, the outputs are
the same. Whatever came before, a power that stays between close bounds is
soon estimated as signal, down to a noise part that the bounds allow. As in the
estimator the numbers are exact: the conversions to `float`, after which the
noise of a nearly constant power may vanish, are left out.
-/

namespace GrCcsds.SnrEstimation

open Foundation FrameSync Extended

variable {K : Type} [Field K] [LinearOrder K]

/-- `SNR_dB` -/
def snrDb (log10 : Extended K → Extended K) (s : Snr K) : Extended K :=
  finite ((10 : Nat) : K) * log10 (s.es / s.n0)

section Work

variable (root : K → K) (log10 : Extended K → Extended K) (decimation : Nat)

/-- The estimator and the outputs after one call. -/
def work (est : Estimator K) (noutputItems : Nat) (input : List (GrComplex K)) :
    Estimator K × List (Extended K) :=
  (List.range noutputItems).foldl
    (fun (est, out) i =>
      let est := est.update root ((input.drop (decimation * i)).take decimation)
      (est, out ++ [snrDb log10 (est.getSnr root)]))
    (est, [])

/-- The outputs of calls with these numbers of outputs. A call consumes `decimation` samples for
each of its outputs. -/
def runCalls : List Nat → Estimator K → List (GrComplex K) → List (Extended K)
  | [], _, _ => []
  | noutputItems :: rest, est, input =>
    let (est, out) := work root log10 decimation est noutputItems input
    out ++ runCalls rest est (input.drop (decimation * noutputItems))

/-- The output after the first `k + 1` parts of the stream. -/
def output (est : Estimator K) (input : List (GrComplex K)) (k : Nat) : Extended K :=
  snrDb log10 ((est.update root (input.take (decimation * (k + 1)))).getSnr root)

theorem work_eq (est : Estimator K) (noutputItems : Nat) (input : List (GrComplex K)) :
    work root log10 decimation est noutputItems input =
      (est.update root (input.take (decimation * noutputItems)),
        (List.range noutputItems).map (output root log10 decimation est input)) := by
  unfold work
  induction noutputItems with
  | zero => rfl
  | succ n ih =>
      have htaken : (est.update root (input.take (decimation * n))).update root
          ((input.drop (decimation * n)).take decimation) =
            est.update root (input.take (decimation * (n + 1))) := by
        rw [← Estimator.update_append, ← List.take_add, Nat.mul_succ]
      rw [List.range_succ, List.foldl_append, ih, List.foldl_cons, List.foldl_nil, List.map_append]
      dsimp only
      rw [htaken]
      rfl

/-- Where the calls cut the stream makes no difference. -/
theorem runCalls_eq (calls : List Nat) (est : Estimator K) (input : List (GrComplex K)) :
    runCalls root log10 decimation calls est input =
      (List.range calls.sum).map (output root log10 decimation est input) := by
  induction calls generalizing est input with
  | nil => rfl
  | cons noutputItems rest ih =>
      have hlater (k : Nat) : output root log10 decimation
          (est.update root (input.take (decimation * noutputItems)))
          (input.drop (decimation * noutputItems)) k =
            output root log10 decimation est input (noutputItems + k) := by
        rw [output, output, ← Estimator.update_append, ← List.take_add, ← Nat.mul_add,
          Nat.add_assoc]
      rw [runCalls, work_eq, List.sum_cons, List.range_add, List.map_append, List.map_map]
      simp only [ih]
      congr 2
      funext k
      exact hlater k

end Work

/-- An exact square root. -/
structure IsRoot (root : K → K) : Prop where
  nonneg : ∀ x, 0 ≤ x → 0 ≤ root x
  mul_self : ∀ x, 0 ≤ x → root x * root x = x

theorem IsRoot.roundsDown {root : K → K} (hroot : IsRoot root) : RoundsDown root where
  nonneg := hroot.nonneg
  mul_self_le := fun x hx => (hroot.mul_self x hx).le

variable [IsStrictOrderedRing K] {root : K → K}

theorem IsRoot.le_root (hroot : IsRoot root) {x y : K} (hx : 0 ≤ x) (hy : 0 ≤ y)
    (hle : y ^ 2 ≤ x) : y ≤ root x := by
  rw [← hroot.mul_self x hx, ← sq] at hle
  exact (pow_le_pow_iff_left₀ hy (hroot.nonneg x hx) two_ne_zero).mp hle

/-- The output for an estimate with noise. -/
theorem snrDb_getSnr (hroot : IsRoot root) (log10 : Extended K → Extended K) (est : Estimator K)
    (hnoise : 0 < est.noiseLin root) :
    snrDb log10 (est.getSnr root) =
      finite ((10 : Nat) : K) * log10 (finite (est.signalLin root / est.noiseLin root)) := by
  have hsignal := signalLin_nonneg hroot.roundsDown est
  rw [snrDb, Estimator.getSnr, Snr.ofEnergies_finite hsignal, Snr.es, finite_mul_finite,
    hroot.mul_self _ hsignal, finite_div_finite _ hnoise.ne']

/-- Bounds between which a margin still leaves the signal part above a level. -/
theorem exists_margin {lo hi level margin : K} (hlo : 0 < lo) (hmargin : 0 < margin)
    (hlevel : level ^ 2 < ((2 : Nat) : K) * lo ^ 2 - hi ^ 2) :
    ∃ d : K, 0 < d ∧ d ≤ margin ∧ d < lo ∧
      level ^ 2 ≤ ((2 : Nat) : K) * (lo - d) ^ 2 - (hi ^ 2 + d) := by
  push_cast at hlevel ⊢
  obtain ⟨gap, hgap⟩ : ∃ gap, gap = 2 * lo ^ 2 - hi ^ 2 - level ^ 2 := ⟨_, rfl⟩
  have hgap_pos : 0 < gap := by linarith
  have hfactor : 0 < 4 * lo + 1 := by linarith
  refine ⟨min margin (min (lo / 2) (gap / (4 * lo + 1))), ?_, min_le_left _ _, ?_, ?_⟩
  · exact lt_min hmargin (lt_min (half_pos hlo) (div_pos hgap_pos hfactor))
  · exact ((min_le_right _ _).trans (min_le_left _ _)).trans_lt (half_lt_self hlo)
  · have hle : min margin (min (lo / 2) (gap / (4 * lo + 1))) * (4 * lo + 1) ≤ gap :=
      (le_div_iff₀ hfactor).mp ((min_le_right _ _).trans (min_le_right _ _))
    nlinarith [sq_nonneg (min margin (min (lo / 2) (gap / (4 * lo + 1))))]

/-- Averages near powers within bounds have a signal part above the level. -/
theorem signalLin_ge (hroot : IsRoot root) {est : Estimator K} {lo hi level d : K}
    (hlevel : 0 ≤ level) (hd : d < lo) (hy1 : lo - d ≤ est.y1) (hy2 : est.y2 ≤ hi ^ 2 + d)
    (hle : level ^ 2 ≤ ((2 : Nat) : K) * (lo - d) ^ 2 - (hi ^ 2 + d)) :
    level ≤ est.signalLin root := by
  have hsquare : (lo - d) ^ 2 ≤ est.y1 ^ 2 := pow_le_pow_left₀ (sub_pos.mpr hd).le hy1 2
  refine hroot.le_root (minusCapZero_nonneg _ _) hlevel (le_trans ?_ (le_minusCapZero _ _))
  push_cast at hle ⊢
  linarith

variable [Archimedean K]

/-- Soon after a change of the powers the averages are near the new ones. -/
theorem averages_settle (root : K → K) {lo hi : K} (hlo : 0 < lo) (before : List (GrComplex K))
    {d : K} (hd : 0 < d) :
    ∃ n, ∀ after : List (GrComplex K),
      (∀ sample ∈ after, lo ≤ power root sample ∧ power root sample ≤ hi) → n ≤ after.length →
      lo - d ≤ (Estimator.initial.update root (before ++ after)).y1 ∧
        (Estimator.initial.update root (before ++ after)).y1 ≤ hi + d ∧
        (Estimator.initial.update root (before ++ after)).y2 ≤ hi ^ 2 + d := by
  obtain ⟨start, hstart⟩ : ∃ start, start = Estimator.initial.update root before := ⟨_, rfl⟩
  obtain ⟨first, hfirst⟩ := isShare_alpha.exists_pow_mul_lt (start.y1 - lo) hd
  obtain ⟨second, hsecond⟩ := isShare_alpha.exists_pow_mul_lt (start.y1 - hi) hd
  obtain ⟨third, hthird⟩ := isShare_alpha.exists_pow_mul_lt (start.y2 - hi ^ 2) hd
  refine ⟨max first (max second third), fun after hpowers hlength => ?_⟩
  have hpow : (0 : K) ≤ (1 - alpha) ^ after.length :=
    pow_nonneg isShare_alpha.rest_pos.le after.length
  have habove : ∀ x ∈ after.map (power root), lo ≤ x := by
    intro x hx
    obtain ⟨sample, hmem, rfl⟩ := List.mem_map.mp hx
    exact (hpowers sample hmem).1
  have hbelow : ∀ x ∈ after.map (power root), x ≤ hi := by
    intro x hx
    obtain ⟨sample, hmem, rfl⟩ := List.mem_map.mp hx
    exact (hpowers sample hmem).2
  have hsquares : ∀ x ∈ (after.map (power root)).map (fun x => x ^ 2), x ≤ hi ^ 2 := by
    intro x hx
    obtain ⟨y, hy, rfl⟩ := List.mem_map.mp hx
    exact pow_le_pow_left₀ (hlo.le.trans (habove y hy)) (hbelow y hy) 2
  have hy1 := ExponentialAverage.le_run_sub isShare_alpha habove start.y1
  have hy1' := ExponentialAverage.run_sub_le isShare_alpha hbelow start.y1
  have hy2 := ExponentialAverage.run_sub_le isShare_alpha hsquares start.y2
  rw [List.length_map] at hy1 hy1' hy2
  rw [List.length_map] at hy2
  have hfirst := hfirst after.length ((le_max_left _ _).trans hlength)
  have hsecond := hsecond after.length
    ((le_max_left _ _).trans ((le_max_right _ _).trans hlength))
  have hthird := hthird after.length
    ((le_max_right _ _).trans ((le_max_right _ _).trans hlength))
  have hstart1 := mul_le_mul_of_nonneg_left (neg_abs_le (start.y1 - lo)) hpow
  have hstart2 := mul_le_mul_of_nonneg_left (le_abs_self (start.y1 - hi)) hpow
  have hstart3 := mul_le_mul_of_nonneg_left (le_abs_self (start.y2 - hi ^ 2)) hpow
  rw [Estimator.update_append, ← hstart, Estimator.update_eq]
  refine ⟨?_, ?_, ?_⟩ <;> dsimp only <;> linarith

/-- Whatever came before and wherever the calls cut the stream, the outputs after enough samples
with powers between two bounds are those of a signal above every level that the bounds allow, and
of a noise that makes up the rest. -/
theorem outputs_settle (hroot : IsRoot root) (log10 : Extended K → Extended K) (decimation : Nat)
    {lo hi level margin : K} (hlo : 0 < lo) (hnonneg : 0 ≤ level) (hmargin : 0 < margin)
    (hlevel : level ^ 2 < ((2 : Nat) : K) * lo ^ 2 - hi ^ 2) (before : List (GrComplex K)) :
    ∃ n, ∀ (after : List (GrComplex K)) (calls : List Nat) (k : Nat),
      (∀ sample ∈ after, lo ≤ power root sample ∧ power root sample ≤ hi) →
      decimation * calls.sum ≤ (before ++ after).length → k < calls.sum →
      before.length + n ≤ decimation * (k + 1) →
      ∃ signal noise : K, level ≤ signal ∧ 0 < noise ∧ lo - margin ≤ signal + noise ∧
        signal + noise ≤ hi + margin ∧
        (runCalls root log10 decimation calls .initial (before ++ after))[k]? =
          some (finite ((10 : Nat) : K) * log10 (finite (signal / noise))) := by
  obtain ⟨d, hd, hle, hlt, hgap⟩ := exists_margin hlo hmargin hlevel
  obtain ⟨n, hn⟩ := averages_settle root hlo before hd
  refine ⟨n, fun after calls k hpowers henough hk hlate => ?_⟩
  have hupto : decimation * (k + 1) ≤ (before ++ after).length :=
    (Nat.mul_le_mul_left decimation hk).trans henough
  rw [List.length_append] at hupto
  have htaken : (before ++ after).take (decimation * (k + 1)) =
      before ++ after.take (decimation * (k + 1) - before.length) := by
    rw [List.take_append, List.take_of_length_le (by omega)]
  obtain ⟨hy1, hy1', hy2⟩ := hn (after.take (decimation * (k + 1) - before.length))
    (fun sample hmem => hpowers sample (List.mem_of_mem_take hmem))
    (by rw [List.length_take]; omega)
  rw [← htaken] at hy1 hy1' hy2
  have haverages := averages_update root ((before ++ after).take (decimation * (k + 1)))
  obtain ⟨est, hest⟩ : ∃ est, est =
      Estimator.initial.update root ((before ++ after).take (decimation * (k + 1))) := ⟨_, rfl⟩
  rw [← hest] at hy1 hy1' hy2 haverages
  have hnoise : 0 < est.noiseLin root :=
    (haverages.noiseLin_pos_iff hroot.roundsDown).mpr ((sub_pos.mpr hlt).trans_le hy1)
  have htotal : est.signalLin root + est.noiseLin root = est.y1 := add_sub_cancel _ _
  refine ⟨est.signalLin root, est.noiseLin root, signalLin_ge hroot hnonneg hlt hy1 hy2 hgap,
    hnoise, by linarith, by linarith, ?_⟩
  rw [runCalls_eq, List.getElem?_map, List.getElem?_range hk, Option.map_some, output, ← hest,
    snrDb_getSnr hroot log10 est hnoise]

section Real

theorem isRoot_sqrt : IsRoot Real.sqrt where
  nonneg := fun x _ => Real.sqrt_nonneg x
  mul_self := fun _ hx => Real.mul_self_sqrt hx

noncomputable def log10 : Extended ℝ → Extended ℝ
  | finite x => if x < 0 then nan else if x = 0 then infinite true else finite (Real.logb 10 x)
  | infinite false => infinite false
  | _ => nan

theorem outputs_settle_constant : ∃ (n : Nat) (signal noise : ℝ), 1 / 2 ≤ signal ∧ 0 < noise ∧
    signal + noise ≤ 1 + 1 / 8 ∧
    (runCalls Real.sqrt log10 1 [n + 1] .initial ([⟨3, 4⟩] ++ List.replicate n ⟨1, 0⟩))[n]? =
      some (finite ((10 : Nat) : ℝ) * log10 (finite (signal / noise))) := by
  have hlevel : (1 / 2 : ℝ) ^ 2 < ((2 : Nat) : ℝ) * 1 ^ 2 - 1 ^ 2 := by norm_num
  obtain ⟨n, hn⟩ := outputs_settle isRoot_sqrt log10 1 one_pos (by norm_num)
    (show (0 : ℝ) < 1 / 8 by norm_num) hlevel [⟨3, 4⟩]
  have hpowers : ∀ sample ∈ List.replicate n (⟨1, 0⟩ : GrComplex ℝ),
      1 ≤ power Real.sqrt sample ∧ power Real.sqrt sample ≤ 1 := by
    intro sample hmem
    rw [List.eq_of_mem_replicate hmem]
    simp [power, abs]
  obtain ⟨signal, noise, hsignal, hnoise, -, hsum, hout⟩ :=
    hn (List.replicate n ⟨1, 0⟩) [n + 1] n hpowers (by simp) (by simp) (by simp; omega)
  exact ⟨n, signal, noise, hsignal, hnoise, hsum, hout⟩

end Real

end GrCcsds.SnrEstimation
