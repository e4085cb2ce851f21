import GrCcsds.Pll.Lock

/-! # From the modulator over the loop to the resolver

The loop takes away the phase and the frequency of a channel up to a rotation by
whole point distances, also the offset of the points of QPSK. A detector without
offset and the resolver give back the symbols, from the first one on.
-/

namespace GrCcsds.Pll

open Utils LoopFilter Foundation Foundation.WhileLoop Softbits
open Ambiguity

variable {K : Type} [Field K] [LinearOrder K] [FloorRing K]

open scoped ExactNumbers

/-- The samples of a modulator behind a channel. -/
def transmitted (mod : Modulator K) (symbols : Nat → UInt8) (gain : Nat → K) (channel : Carrier K)
    (n : Nat) : Sample K :=
  let x := (mod.work [symbols n]).headD 0
  ⟨gain n * x.amplitude, x.angle + channel.phaseAt n⟩

/-- The hard decisions behind detector and conversion of the resolver. -/
def decisions (det : Detector K) (ldM ambiguity : Nat) (samples : List (Sample K)) : List Bool :=
  let softBits := det.work samples
  (List.range softBits.length).map fun p =>
    hardDecision
      (convertAmbiguity ldM (fun p => softBits.getD p 0) softBits.length ambiguity p)

/-- The carrier that the points of a constellation are on, whose phase is not the one of the
channel. -/
structure Carrier.Behind (c : Carrier K) (order ambiguity : Nat) (channel : Carrier K) : Prop where
  phase : ∃ turns : ℤ, channel.phase + offsetPoints order / order =
    ambiguity / order + c.phase + turns
  frequency : channel.frequency = c.frequency

variable {ldM : Nat} [IsStrictOrderedRing K]

theorem decisions_eq (hpos : 1 ≤ ldM) (hle : ldM ≤ 8) {ambiguity : Nat}
    (hambiguity : ambiguity < 2 ^ ldM) {det : Detector K} (hldM : det.ldM = ldM)
    {samples : List (Sample K)} {symbols : List UInt8}
    (hsamples : ∀ (n : Nat) (symbol : UInt8), symbols[n]? = some symbol → symbol.toNat < 2 ^ ldM ∧
      ∃ x, samples[n]? = some x ∧ 0 < x.amplitude ∧ det.symBits x =
        mpskMap (2 ^ ldM) ((mpskRevMap (2 ^ ldM) symbol.toNat + ambiguity) % 2 ^ ldM))
    (hlength : samples.length = symbols.length) :
    decisions det ldM ambiguity samples = symbols.flatMap (msbFirst ldM) := by
  have hbits : ∀ symbol, (msbFirst ldM symbol).length = ldM := by
    intro symbol
    simp [msbFirst]
  have hsoft : (det.work samples).length = ldM * symbols.length := by
    rw [Detector.work, Grouping.length_flatMap_blocks
      (fun x => (length_symbol_detector det x).trans hldM), hlength]
  apply List.ext_getElem?
  intro p
  by_cases hp : p < ldM * symbols.length
  · have hj : p % ldM < ldM := Nat.mod_lt p hpos
    have hsymbol := List.getElem?_eq_getElem (Nat.div_lt_of_lt_mul hp)
    obtain ⟨hlt, x, hx, hamplitude, hdetected⟩ := hsamples _ _ hsymbol
    have hdecision := hardDecision_detected hpos hle hldM hx hamplitude hlt hambiguity hdetected hj
    have hblock := Grouping.getElem?_flatMap_blocks hbits symbols (p / ldM) hj
    rw [Nat.div_add_mod] at hdecision hblock
    rw [hblock, hsymbol, decisions]
    simp only [hsoft, List.getElem?_map, List.getElem?_range hp, Option.map_some,
      Option.bind_some, convertAmbiguity_of_lt _ (Nat.dvd_mul_right _ _) _ hp]
    change some (hardDecision (convertBit ldM (detected det samples) ambiguity p)) = _
    rw [hdecision]
    simp [msbFirst, hj]
  · rw [List.getElem?_eq_none (by simpa [decisions, hsoft] using hp), List.getElem?_eq_none]
    rw [Grouping.length_flatMap_blocks hbits]
    exact Nat.le_of_not_lt hp

section Channel

variable {ambiguity : Nat} {channel c : Carrier K} {symbols : Nat → UInt8} {gain : Nat → K}

/-- The number of the point that a symbol arrives at. -/
def pointIndex (ldM ambiguity : Nat) (symbols : Nat → UInt8) (n : Nat) : Nat :=
  mpskRevMap (2 ^ ldM) (symbols n).toNat + ambiguity

theorem received_transmitted (hle : ldM ≤ 8) (hsymbols : ∀ n, (symbols n).toNat < 2 ^ ldM)
    (hgain : ∀ n, Storable (2 ^ ldM) (gain n)) (hbehind : c.Behind (2 ^ ldM) ambiguity channel) :
    ∃ mod : Modulator K, Modulator.make (2 ^ ldM) = some mod ∧
      (∀ n, (transmitted mod symbols gain channel n).amplitude = gain n) ∧
      Carrier.Received (2 ^ ldM) c (fun n => (pointIndex ldM ambiguity symbols n : ℤ))
        (transmitted mod symbols gain channel) := by
  obtain ⟨mod, hmod, hsent⟩ := modulator_make (K := K) hle
  have hhead : ∀ n, ((mod.work [symbols n]).headD 0).amplitude = 1 ∧
      Near ldM (mpskRevMap (2 ^ ldM) (symbols n).toNat) 0 ((mod.work [symbols n]).headD 0) := by
    intro n
    obtain ⟨x, hx, hpoint⟩ := hsent [symbols n] 0 _ rfl (hsymbols n)
    rwa [List.headD_eq_head?_getD, List.head?_eq_getElem?, hx, Option.getD_some]
  have hamplitude : ∀ n, (transmitted mod symbols gain channel n).amplitude = gain n := by
    intro n
    rw [transmitted, (hhead n).1, mul_one]
  refine ⟨mod, hmod, hamplitude, fun n => ⟨hamplitude n ▸ hgain n, ?_⟩⟩
  obtain ⟨-, turns, hangle⟩ := hhead n
  obtain ⟨⟨wraps, hphase⟩, hfrequency⟩ := hbehind
  refine ⟨turns + wraps, ?_⟩
  simp only [transmitted, hangle, Carrier.phaseAt, hfrequency, pointIndex]
  push_cast at hphase ⊢
  linear_combination hphase

/-- A sample behind the loop is taken for its symbol with the rotation. -/
theorem symBits_corrected (hle : ldM ≤ 8) {gains : Lpf2 K} {input : Nat → Sample K} {n : Nat}
    {x : Sample K}
    (hx : Corrected (2 ^ ldM) c gains (fun n => (pointIndex ldM ambiguity symbols n : ℤ)) input n x)
    (herror : |c.error gains n| < Carrier.half (2 ^ ldM)) :
    (detectorAt ldM 0).symBits x =
      mpskMap (2 ^ ldM) (pointIndex ldM ambiguity symbols n % 2 ^ ldM) := by
  obtain ⟨-, turns, hangle⟩ := hx
  have hmod := Nat.mod_lt (pointIndex ldM ambiguity symbols n) (Nat.two_pow_pos ldM)
  refine symBits_detectorAt hle (by norm_num) hmod (Carrier.half_eq (K := K) _ ▸ herror)
    ⟨turns + (pointIndex ldM ambiguity symbols n / 2 ^ ldM : Nat), ?_⟩
  have horder : ((2 ^ ldM : Nat) : K) ≠ 0 := Nat.cast_ne_zero.mpr (Nat.two_pow_pos ldM).ne'
  rw [hangle, Int.cast_natCast]
  generalize 2 ^ ldM = order at *
  generalize pointIndex ldM ambiguity symbols n = index at *
  have hdivision : (index : K) = (index % order : Nat) + order * (index / order : Nat) := by
    exact_mod_cast (Nat.mod_add_div index order).symm
  rw [hdivision]
  generalize ((index % order : Nat) : K) = point
  generalize index / order = wraps
  push_cast
  field_simp
  ring

/-- Modulator, channel, loop, detector, and resolver in every run of the calls of the loop, for
channels that differ by a rotation from a carrier that the loop captures. -/
theorem pll_chain_eq (float : ComplexFloat K) {loopBandwidth bound : K} (hbw : 0 < loopBandwidth)
    (hlt : loopBandwidth < 3 / 4) (hpos : 1 ≤ ldM) (hle : ldM ≤ 8)
    (hsymbols : ∀ n, (symbols n).toNat < 2 ^ ldM) (hgain : ∀ n, Storable (2 ^ ldM) (gain n))
    (hambiguity : ambiguity < 2 ^ ldM) (hbehind : c.Behind (2 ^ ldM) ambiguity channel)
    (hcaptured : c.Captured (2 ^ ldM) (Block.make (2 ^ ldM) loopBandwidth).filter bound)
    (calls : List Call) :
    ∃ mod det last, Modulator.make (2 ^ ldM) = some mod ∧ Detector.make (2 ^ ldM) 0 = some det ∧
      Ends (fun fuel =>
        Transition.run (fun s call => s.step float fuel (transmitted mod symbols gain channel) call)
          (Session.start (Block.make (2 ^ ldM) loopBandwidth)) calls) last ∧
      last.consumed = (calls.map fun call => min call.noutputItems call.ninputItems).sum ∧
      decisions det ldM ambiguity last.out =
        ((List.range last.consumed).map symbols).flatMap (msbFirst ldM) := by
  have hgains : (Block.make (2 ^ ldM) loopBandwidth).filter.Stable 1 :=
    (designable_default hbw hlt).stable one_pos
  obtain ⟨mod, hmod, -, hreceived⟩ := received_transmitted hle hsymbols hgain hbehind
  obtain ⟨last, hends, hlocked, hconsumed⟩ :=
    exists_run_locked float (Nat.two_pow_pos ldM) hgains hcaptured hreceived calls
  refine ⟨mod, detectorAt ldM 0, last, hmod, detectorAt_make hle 0, hends, hconsumed, ?_⟩
  apply decisions_eq hpos hle hambiguity rfl
  · intro n symbol hsymbol
    obtain ⟨m, hm, rfl⟩ := Option.map_eq_some_iff.mp (List.getElem?_map ▸ hsymbol)
    obtain ⟨hn, hnumber⟩ := List.getElem?_eq_some_iff.mp hm
    rw [List.length_range] at hn
    rw [List.getElem_range] at hnumber
    subst hnumber
    obtain ⟨x, hx, hcorrected⟩ := hlocked.corrected n hn
    have herror := (hcaptured.abs_error_le hgains n).trans_lt (hcaptured.bound_lt hgains)
    exact ⟨hsymbols n, x, hx, hcorrected.1 ▸ (hreceived n).1.pos,
      symBits_corrected hle hcorrected herror⟩
  · simp [hlocked.length_out]

end Channel

theorem storable_three : Storable (2 ^ 2) (3 : ℚ) where
  pos := by norm_num
  leastNormal_le := by norm_num [Format.leastNormal, Format.binary32]
  le_greatest := by norm_num [Format.greatest, Format.binary32]

/-- QPSK that arrives two points further, with the phase offset of its points and a frequency. -/
theorem pll_chain_eq_qpsk :
    ∃ mod det last, Modulator.make 4 = some mod ∧ Detector.make 4 (0 : ℚ) = some det ∧
      Ends (fun fuel =>
        Transition.run (fun s call => s.step .flush fuel
          (transmitted mod (fun n => UInt8.ofNat (n % 4)) (fun _ => 3) ⟨3 / 8 + 1 / 500, 1 / 500⟩)
            call)
          (Session.start (Block.make 4 (1 / 4))) [⟨1, 4⟩, ⟨5, 2⟩]) last ∧
      last.consumed = 3 ∧
      decisions det 2 2 last.out =
        ((List.range last.consumed).map fun n => UInt8.ofNat (n % 4)).flatMap (msbFirst 2) := by
  have hcaptured : Carrier.Captured (2 ^ 2) (⟨1 / 500, 1 / 500⟩ : Carrier ℚ)
      (Block.make (2 ^ 2) (1 / 4)).filter (20 * (1 / 500)) :=
    captured_quarter (by norm_num [abs_of_pos]) (by norm_num [abs_of_pos])
      (by norm_num [Carrier.half])
  have hbehind : Carrier.Behind (⟨1 / 500, 1 / 500⟩ : Carrier ℚ) (2 ^ 2) 2
      ⟨3 / 8 + 1 / 500, 1 / 500⟩ := ⟨⟨0, by norm_num [offsetPoints]⟩, rfl⟩
  refine pll_chain_eq .flush (by norm_num) (by norm_num) (by decide) (by decide) ?_
    (fun _ => storable_three) (by decide) hbehind hcaptured [⟨1, 4⟩, ⟨5, 2⟩]
  intro n
  have hmod := Nat.mod_lt n (by decide : 0 < 4)
  simp only [UInt8.toNat_ofNat']
  omega

end GrCcsds.Pll
