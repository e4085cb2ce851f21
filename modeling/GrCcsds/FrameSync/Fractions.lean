import GrCcsds.FrameSync.SnrTags
import Mathlib.Tactic.Linarith
import Mathlib.Tactic.Positivity
import Mathlib.Tactic.Ring

/-! # The interpolation of the energies

`read_signal` interpolates the SNR over the symbols that one call accepts, from
the tag of the current block to the new tag. The scale of the interpolation is
one over the number of symbols minus one, so a single symbol has no fraction.
-/

namespace GrCcsds.FrameSync

open Utils Foundation Extended

namespace Interpolation

variable {K : Type} [Field K] [LinearOrder K]

/-- The divisor of the scale is not zero, the fractions are numbers from 0 to 1, the noise energies
are positive numbers, and the factors, whose divisors they are, are numbers. -/
structure WellDefined (s : Interpolation K) (blockLength : Nat) : Prop where
  divisor : ((minusCapZero blockLength 1 : Nat) : K) ≠ 0
  fraction : ∀ i < blockLength, ∃ x : K, s.getFractionWindow i = finite x ∧ 0 ≤ x ∧ x ≤ 1
  noise : ∀ i < blockLength, ∃ x : K, s.n0Window i = finite x ∧ 0 < x
  factor : ∀ i < blockLength, ∃ x : K, s.factor i = finite x

variable [IsStrictOrderedRing K]

/-- A value between two positive ones is positive. -/
theorem interpolated_pos {start stop fraction : K} (hstart : 0 < start) (hstop : 0 < stop)
    (hnonneg : 0 ≤ fraction) (hle : fraction ≤ 1) :
    0 < start + (stop - start) * fraction := by
  have heq : start + (stop - start) * fraction =
      start * (1 - fraction) + stop * fraction := by ring
  rw [heq]
  rcases eq_or_lt_of_le hnonneg with rfl | hpos
  · simpa using hstart
  · have hfirst : 0 ≤ start * (1 - fraction) :=
      mul_nonneg (le_of_lt hstart) (sub_nonneg.mpr hle)
    have hlast : 0 < stop * fraction := mul_pos hstop hpos
    linarith

theorem scale_eq {blockLength : Nat} (hlength : 2 ≤ blockLength) :
    scale blockLength = finite (1 / ((blockLength - 1 : Nat) : K)) := by
  have hne : ((blockLength - 1 : Nat) : K) ≠ 0 := Nat.cast_ne_zero.mpr (by omega)
  rw [scale, minusCapZero_eq_sub, finite_div_finite _ hne]

/-- The fractions of at least two symbols. -/
theorem fraction_mem {blockLength i : Nat} (hi : i < blockLength) :
    0 ≤ (i : K) * (1 / ((blockLength - 1 : Nat) : K)) ∧
      (i : K) * (1 / ((blockLength - 1 : Nat) : K)) ≤ 1 := by
  have hle : (i : K) ≤ ((blockLength - 1 : Nat) : K) := Nat.cast_le.mpr (Nat.le_sub_one_of_lt hi)
  rw [mul_one_div]
  exact ⟨by positivity, div_le_one_of_le₀ hle (Nat.cast_nonneg _)⟩

/-- A single symbol has no fraction, since its scale is infinite. -/
theorem getFractionWindow_single {s : Interpolation K} (hscale : s.blockLenScale = scale 1) :
    s.getFractionWindow 0 = nan := by
  have hinfinite : (scale 1 : Extended K) = infinite false := by
    rw [scale, minusCapZero_eq_sub, Nat.sub_self, Nat.cast_zero, finite_div_zero zero_lt_one]
  rw [getFractionWindow, hscale, hinfinite, Nat.cast_zero, zero_mul_infinite]

/-- An interpolation between positive noise energies is well defined from two symbols on. -/
theorem wellDefined_iff {s : Interpolation K} {blockLength : Nat} {start stop : K}
    (hbetween : s.Between blockLength start stop) (hstart : 0 < start) (hstop : 0 < stop) :
    s.WellDefined blockLength ↔ 2 ≤ blockLength := by
  constructor
  · intro hdefined
    have hne : minusCapZero blockLength 1 ≠ 0 := Nat.cast_ne_zero.mp hdefined.divisor
    rw [minusCapZero_eq_sub] at hne
    omega
  · intro hlength
    obtain ⟨hscale, hn00, hn0M, first, slope, hfirst, hslope⟩ := hbetween
    have hfraction (i : Nat) : s.getFractionWindow i =
        finite ((i : K) * (1 / ((blockLength - 1 : Nat) : K))) := by
      rw [getFractionWindow, hscale, scale_eq hlength, finite_mul_finite]
    have hnoise (i : Nat) (hi : i < blockLength) : ∃ x : K, s.n0Window i = finite x ∧ 0 < x := by
      obtain ⟨hnonneg, hle⟩ := fraction_mem (K := K) hi
      refine ⟨_, ?_, interpolated_pos hstart hstop hnonneg hle⟩
      rw [n0Window, hfraction, hn00, hn0M, finite_mul_finite, finite_add_finite]
    refine ⟨?_, fun i hi => ⟨_, hfraction i, fraction_mem hi⟩, hnoise, fun i hi => ?_⟩
    · rw [minusCapZero_eq_sub]
      exact Nat.cast_ne_zero.mpr (by omega)
    · obtain ⟨x, hx, hpos⟩ := hnoise i hi
      refine ⟨(first + slope * ((i : K) * (1 / ((blockLength - 1 : Nat) : K)))) / x, ?_⟩
      rw [Interpolation.factor, sqrtEsWindow, hfraction, hfirst, hslope, finite_mul_finite,
        finite_add_finite, hx, finite_div_finite _ hpos.ne']

end Interpolation

/-- The SNRs of energies that are numbers, with noise. -/
def Snr.HasNoise {K : Type} [Field K] [LinearOrder K] (root : K → K) (s : Snr K) : Prop :=
  ∃ es n0 : K, 0 ≤ es ∧ 0 < n0 ∧ s = Snr.ofEnergies root (finite es) (finite n0)

namespace SnrValues

variable {env : Platform} {K : Type} [Field K] [LinearOrder K] (values : SnrValues env K)

/-- A valid SNR with a positive noise energy. -/
def HasNoise (snr : env.Snr) : Prop := (values.value snr).HasNoise values.root

/-- The interpolation that the constructor makes for a block is well defined. -/
def WellDefined (arguments : SnrInterpolation env.Snr) : Prop :=
  ∃ interpolation, values.interpolation arguments = some interpolation ∧
    interpolation.WellDefined arguments.blockLength

theorem wellDefined_iff [IsStrictOrderedRing K] {arguments : SnrInterpolation env.Snr}
    (hfirst : arguments.first = env.invalidSnr ∨ values.HasNoise arguments.first)
    (hlast : values.HasNoise arguments.last) :
    values.WellDefined arguments ↔ 2 ≤ arguments.blockLength := by
  obtain ⟨start, stop, made, hstart, hstop, hmade, hbetween⟩ :=
    values.exists_interpolation hfirst (Or.inr hlast) (Or.inr hlast)
  have hiff := Interpolation.wellDefined_iff hbetween hstart hstop
  constructor
  · rintro ⟨other, hother, hdefined⟩
    cases hmade.symm.trans hother
    exact hiff.mp hdefined
  · intro hlength
    exact ⟨made, hmade, hiff.mpr hlength⟩

end SnrValues

namespace Layout

variable {env : Platform} (layout : Layout env.Sample) (b : Buffer env)

/-- The arguments of the interpolation that `read_signal` makes. -/
def chunkArguments (input : List env.Sample) (snrEnd : env.Snr) : SnrInterpolation env.Snr where
  first := (b.setSnrCurrentEnd snrEnd).snrCurrentStart
  last := (b.setSnrCurrentEnd snrEnd).snrCurrentEnd
  offsetStart := b.offsetCounter
  blockLength := (layout.readSignal b input snrEnd).2

/-- Each new energy is that of its own symbol of the chunk. -/
theorem readSignal_energy (input : List env.Sample) (snrEnd : env.Snr) :
    (layout.readSignal b input snrEnd).1.energy =
      Memory.copy b.numItems (layout.readSignal b input snrEnd).2
        (fun i => env.energyCorrection (layout.chunkArguments b input snrEnd) i
          (input.getD i env.zero)) b.energy := rfl

end Layout

namespace Session

variable {env : Platform} {layout : Layout env.Sample} {fits : env.Snr → Prop}

theorem Tagged.chunkArguments {numAdvanced : Nat} {s : Session env}
    (htagged : Tagged layout fits numAdvanced s) (input : List env.Sample) (snrEnd : env.Snr) :
    ((layout.chunkArguments s.buffer input snrEnd).first = env.invalidSnr ∨
        fits (layout.chunkArguments s.buffer input snrEnd).first) ∧
      (layout.chunkArguments s.buffer input snrEnd).last = snrEnd := by
  have hlength := htagged.length
  have htag (k : Nat) :
      (s.buffer.setSnrCurrentEnd snrEnd).snrTags.getD k env.invalidSnr =
        if k = s.buffer.snrTags.length - 1 then snrEnd
        else s.buffer.snrTags.getD k env.invalidSnr :=
    getD_set_last (by omega) snrEnd k
  have hset : (s.buffer.setSnrCurrentEnd snrEnd).snrTags.length =
      s.buffer.snrTags.length := List.length_set
  constructor
  · have hfirst : (layout.chunkArguments s.buffer input snrEnd).first =
        s.buffer.snrTags.getD layout.numHistoryFrames env.invalidSnr := by
      rw [Layout.chunkArguments, Buffer.snrCurrentStart, htag, hset, minusCapZero_eq_sub,
        if_neg (by omega), hlength]
      rfl
    rw [hfirst]
    exact htagged.each layout.numHistoryFrames
  · rw [Layout.chunkArguments, Buffer.snrCurrentEnd, htag, hset, minusCapZero_eq_sub, if_pos rfl]

/-- The interpolation of a read is well defined. -/
def InterpolationDefined {K : Type} [Field K] [LinearOrder K] (values : SnrValues env K)
    (layout : Layout env.Sample) (s : Session env) : Layout.Call env → Prop
  | .readSignal input snrEnd =>
    values.WellDefined (layout.chunkArguments s.buffer input snrEnd)
  | .advance => True

/-- A read offers at least two symbols to a buffer that misses at least two. -/
def OffersTwo (layout : Layout env.Sample) (s : Session env) : Layout.Call env → Prop
  | .readSignal input _ => 2 ≤ input.length ∧ 2 ≤ layout.numSymbolsMissing s.buffer
  | .advance => True

variable {K : Type} [Field K] [LinearOrder K] [IsStrictOrderedRing K] (values : SnrValues env K)

theorem interpolationDefined_iff (hblock : 0 < layout.blockLen) {s : Session env}
    (hreached : ReachedWith layout values.HasNoise s) {call : Layout.Call env}
    (hreads : ReadsWith values.HasNoise call) :
    InterpolationDefined values layout s call ↔ OffersTwo layout s call := by
  cases call with
  | advance => exact Iff.rfl
  | readSignal input snrEnd =>
      obtain ⟨numAdvanced, htagged⟩ := hreached.tagged hblock
      obtain ⟨hfirst, hlast⟩ := htagged.chunkArguments input snrEnd
      have hlength : (layout.chunkArguments s.buffer input snrEnd).blockLength =
          min input.length (layout.numSymbolsMissing s.buffer) :=
        layout.readSignal_snd s.buffer input snrEnd
      rw [InterpolationDefined, values.wellDefined_iff hfirst (hlast.symm ▸ hreads), hlength]
      exact le_min_iff

/-- The interpolations of all reads are well defined if and only if no read accepts fewer than
two symbols. -/
theorem interpolations_defined_iff (hblock : 0 < layout.blockLen)
    {calls : List (Layout.Call env)} (hreads : ∀ call ∈ calls, ReadsWith values.HasNoise call) :
    Transition.Along (step layout) (InterpolationDefined values layout) (start layout) calls ↔
      Transition.Along (step layout) (OffersTwo layout) (start layout) calls :=
  Transition.along_congr (fun _ _ hreached => interpolationDefined_iff values hblock hreached)
    (fun _ => hreads) .refl

end Session

theorem hasNoise_unitSnr : exactValues.HasNoise unitSnr :=
  ⟨1, 1, zero_le_one, zero_lt_one, (Snr.ofEnergies_finite zero_le_one (fun x => x) _).symm⟩

theorem interpolations_defined_iff_tagged :
    Transition.Along (Session.step taggedLayout)
      (Session.InterpolationDefined exactValues taggedLayout) (Session.start taggedLayout)
      [.readSignal [5, 6] unitSnr, .readSignal [7, 8] unitSnr] := by
  refine (Session.interpolations_defined_iff exactValues (by decide) ?_).mpr ?_
  · simp [Session.ReadsWith, hasNoise_unitSnr]
  · refine ⟨⟨by decide, by decide⟩, ?_⟩
    rintro next ⟨⟩
    exact ⟨⟨by decide, by decide⟩, fun _ _ => trivial⟩

/-- The symbol that fills the buffer has no fraction if it comes alone. -/
theorem filling_symbol_undefined :
    (∃ s, Session.step taggedLayout (Session.start taggedLayout)
        (.readSignal [5, 6, 7] unitSnr) = some s ∧
      (exactValues.interpolation (taggedLayout.chunkArguments s.buffer [8] unitSnr)).map
        (fun interpolation => interpolation.getFractionWindow 0) = some nan) ∧
      ¬ Transition.Along (Session.step taggedLayout)
        (Session.InterpolationDefined exactValues taggedLayout) (Session.start taggedLayout)
        [.readSignal [5, 6, 7] unitSnr, .readSignal [8] unitSnr] := by
  refine ⟨⟨_, rfl, by decide +kernel⟩, ?_⟩
  rintro ⟨-, hrest⟩
  obtain ⟨⟨_, -, hdefined⟩, -⟩ := hrest _ rfl
  exact hdefined.divisor Nat.cast_zero

end GrCcsds.FrameSync
