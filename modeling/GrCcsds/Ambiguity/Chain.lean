import GrCcsds.Ambiguity.Rotation
import GrCcsds.Ambiguity.Modulation
import GrCcsds.Foundation.Grouping
import GrCcsds.Foundation.Sector

/-! # From the modulator to the resolver

The tables of modulator, detector, and resolver belong to one constellation. A
rotation by whole point distances moves the index of each symbol, the detector
ignores phase errors of less than half a point distance, and the resolver moves
the indices back.
-/

namespace GrCcsds.Ambiguity

open Utils Foundation Softbits

section Definitions

variable {R : Type} [Arithmetic R]

/-- The phase offset of the detector in point distances. -/
def offsetPoints (order : Nat) : R := if order = 4 then 1 / (2 : Nat) else 0

/-- The samples scaled, rotated by whole point distances, and with phase errors. -/
def received (order ambiguity : Nat) (gain error : Nat → R) (sent : List (Sample R)) :
    List (Sample R) :=
  sent.mapIdx fun i x => ⟨gain i * x.amplitude, x.angle + ambiguity / order + error i⟩

/-- The hard decisions behind modulator, detector, and the conversion of the resolver. -/
def chain (ldM ambiguity : Nat) (gain error : Nat → R) (symbols : List UInt8) :
    Option (List Bool) := do
  let mod ← Modulator.make (2 ^ ldM)
  let det ← Detector.make (2 ^ ldM) (offsetPoints (2 ^ ldM))
  let softBits := det.work (received (2 ^ ldM) ambiguity gain error (mod.work symbols))
  let resolved := convertAmbiguity ldM (fun p => softBits.getD p 0) softBits.length ambiguity
  return (List.range softBits.length).map fun p => hardDecision (resolved p)

/-- The bits of a symbol, the most significant one first. -/
def msbFirst (ldM : Nat) (symbol : UInt8) : List Bool :=
  (List.range ldM).map fun j => symbol.toNat.testBit (ldM - 1 - j)

end Definitions

section Tables

variable {ldM : Nat}

theorem togray_injective (hle : ldM ≤ 8) {i j : Nat} (hi : i < 2 ^ ldM) (hj : j < 2 ^ ldM)
    (heq : togray i = togray j) : i = j := by
  rw [← tobinary_togray (lt_two_pow_word hle hi), heq, tobinary_togray (lt_two_pow_word hle hj)]

theorem getLdM_two_pow (ldM : Nat) : getLdM (2 ^ ldM) = ldM := by
  have hsquare : 2 * (2 ^ ldM) ^ 2 = 2 ^ (2 * ldM + 1) := by ring
  rw [getLdM, hsquare, Nat.log2_two_pow]
  omega

end Tables

section Exact

variable {K : Type} [Field K] [LinearOrder K] [IsStrictOrderedRing K] [FloorRing K]

open scoped ExactNumbers

variable {ldM : Nat}

/-- A point of the constellation, its number counted counterclockwise. -/
def point (order i : Nat) : Sample K := ⟨1, i / order⟩

omit [IsStrictOrderedRing K] in
theorem point_mul (order i : Nat) :
    point order i * point order 1 = (point order (i + 1) : Sample K) := by
  change Sample.mk ((1 : K) * 1) (i / order + (1 : Nat) / order) = ⟨1, (i + 1 : Nat) / order⟩
  rw [mul_one, ← add_div, Nat.cast_add]

omit [IsStrictOrderedRing K] in
/-- After some rounds the table has the first points, each at the gray code of its number. -/
theorem pskConst_loop (hle : ldM ≤ 8) {n : Nat} (hn : n ≤ 2 ^ ldM) :
    ∃ map : List (Sample K),
      (List.range n).foldlM (pskConstStep (2 ^ ldM) (point (2 ^ ldM) 1))
        (List.replicate (2 ^ ldM) 0, point (2 ^ ldM) 0) = some (map, point (2 ^ ldM) n) ∧
      map.length = 2 ^ ldM ∧ ∀ i < n, map[togray i]? = some (point (2 ^ ldM) i) := by
  induction n with
  | zero => exact ⟨List.replicate (2 ^ ldM) 0, rfl, List.length_replicate, nofun⟩
  | succ n ih =>
      obtain ⟨map, hfold, hlength, hpoints⟩ := ih (Nat.le_of_succ_le hn)
      have hgray : togray n < 2 ^ ldM := togray_lt hn
      refine ⟨map.set (togray n) (point (2 ^ ldM) n), ?_, ?_, ?_⟩
      · simp [List.range_succ, hfold, pskConstStep, hgray, point_mul]
      · simp [hlength]
      · intro i hi
        rcases Nat.lt_succ_iff_lt_or_eq.mp hi with hi | rfl
        · have hne : togray n ≠ togray i := by
            intro heq
            have := togray_injective hle hn (Nat.lt_trans hi hn) heq
            omega
          rw [List.getElem?_set_ne hne, hpoints i hi]
        · rw [List.getElem?_set_self (hlength ▸ hgray)]

/-- A sample is off a point of the constellation by an error, whole turns aside. -/
def Near (ldM i : Nat) (error : K) (x : Sample K) : Prop :=
  ∃ turns : ℤ, x.angle = (i + offsetPoints (2 ^ ldM)) / (2 ^ ldM : Nat) + error + turns

omit [IsStrictOrderedRing K] in
/-- The table of the modulator has the point with the offset of the detector at the bits that
the mapping gives it. -/
theorem makeMpskConst_eq (hle : ldM ≤ 8) :
    ∃ map : List (Sample K), makeMpskConst (2 ^ ldM) = some map ∧
      ∀ i < 2 ^ ldM, ∃ x, map[mpskMap (2 ^ ldM) i]? = some x ∧ x.amplitude = 1 ∧
        Near ldM i 0 x := by
  by_cases hqpsk : 2 ^ ldM = 4
  · unfold Near
    rw [hqpsk]
    -- the table of QPSK is written out, with angles in both directions
    refine ⟨makeQpskConst, rfl, ?_⟩
    intro i hi
    obtain rfl | rfl | rfl | rfl : i = 0 ∨ i = 1 ∨ i = 2 ∨ i = 3 := by omega
    · exact ⟨_, rfl, rfl, 0, by norm_num [offsetPoints]⟩
    · exact ⟨_, rfl, rfl, 0, by norm_num [offsetPoints]⟩
    · exact ⟨_, rfl, rfl, -1, by norm_num [offsetPoints]⟩
    · exact ⟨_, rfl, rfl, -1, by norm_num [offsetPoints]⟩
  -- the other orders turn a phasor by one point in every round
  · obtain ⟨map, hfold, -, hpoints⟩ := pskConst_loop (K := K) hle (Nat.le_refl _)
    refine ⟨map, ?_, ?_⟩
    · have hone : (1 : Sample K) = point (2 ^ ldM) 0 := by
        simp [point, Sample.one_eq]
      have hdiff : Sample.mk (1 : K) (1 / (2 ^ ldM : Nat)) = point (2 ^ ldM) 1 := by
        simp [point]
      rw [makeMpskConst, if_neg hqpsk, makePskConst, hone, hdiff, hfold]
      rfl
    · intro i hi
      refine ⟨point (2 ^ ldM) i, ?_, rfl, 0, ?_⟩
      · simp [mpskMap, hqpsk, pskMap, hpoints i hi]
      · simp [point, offsetPoints, hqpsk]

omit [IsStrictOrderedRing K] in
theorem modulator_make (hle : ldM ≤ 8) :
    ∃ mod : Modulator K, Modulator.make (2 ^ ldM) = some mod ∧
      ∀ (symbols : List UInt8) (n : Nat) (symbol : UInt8), symbols[n]? = some symbol →
        symbol.toNat < 2 ^ ldM → ∃ x, (mod.work symbols)[n]? = some x ∧ x.amplitude = 1 ∧
          Near ldM (mpskRevMap (2 ^ ldM) symbol.toNat) 0 x := by
  obtain ⟨map, hmap, hpoints⟩ := makeMpskConst_eq (K := K) hle
  refine ⟨⟨2 ^ ldM, map⟩, by rw [Modulator.make, hmap]; rfl, ?_⟩
  intro symbols n symbol hn hsymbol
  obtain ⟨x, hx, hpoint⟩ := hpoints _ (mpskRevMap_lt hsymbol)
  rw [mpskMap_mpskRevMap hle hsymbol] at hx
  exact ⟨x, by simp [Modulator.work, hn, Nat.mod_eq_of_lt hsymbol, hx], hpoint⟩

section Detection

theorem floor_arithmetic (x : K) :
    Arithmetic.toUInt64 (Arithmetic.floor x : K) = ⌊x⌋₊ := by
  change ⌊((⌊x⌋ : ℤ) : K)⌋₊ = ⌊x⌋₊
  rw [← Int.floor_toNat, Int.floor_intCast, Int.floor_toNat]

omit [IsStrictOrderedRing K] in
theorem fmodOne_arithmetic {x : K} (hx : 0 ≤ x) : Arithmetic.fmodOne x = Int.fract x :=
  if_pos hx

omit [IsStrictOrderedRing K] in
theorem atan2_eq_wrap (x : Sample K) : x.atan2 = Sector.wrap x.angle := by
  change x.angle + ((⌊1 / ((2 : Nat) : K) + -x.angle⌋ : ℤ) : K) = _
  rw [Sector.wrap, Nat.cast_ofNat, sub_eq_add_neg]

theorem offsetPoints_le (order : Nat) : (offsetPoints order : K) ≤ 1 / 2 := by
  unfold offsetPoints
  split
  · simp
  · norm_num

/-- The detector of the chain. -/
def detector (ldM : Nat) : Detector K where
  order := 2 ^ ldM
  ldM := ldM
  phaseOffset := offsetPoints (2 ^ ldM) / (2 ^ ldM : Nat)
  map := mpskMap (2 ^ ldM)

/-- A detector of the order for another phase offset. -/
def detectorAt (ldM : Nat) (offset : K) : Detector K where
  order := 2 ^ ldM
  ldM := ldM
  phaseOffset := offset / (2 ^ ldM : Nat)
  map := mpskMap (2 ^ ldM)

omit [IsStrictOrderedRing K] in
theorem detectorAt_make (hle : ldM ≤ 8) (offset : K) :
    Detector.make (2 ^ ldM) offset = some (detectorAt ldM offset) := by
  have horder : 2 ^ ldM ≤ 256 := Nat.pow_le_pow_right Nat.two_pos hle
  have hgray : ∀ i < 2 ^ ldM, togray i < 2 ^ ldM := fun i hi => togray_lt hi
  rw [Detector.make, if_neg (Nat.not_lt.mpr horder), makeMpskMap, if_pos (Or.inr hgray),
    getLdM_two_pow]
  rfl

omit [IsStrictOrderedRing K] in
theorem detector_make (hle : ldM ≤ 8) :
    Detector.make (2 ^ ldM) (offsetPoints (2 ^ ldM)) = some (detector (K := K) ldM) :=
  detectorAt_make hle (offsetPoints (2 ^ ldM))

/-- A sample that is less than half a point distance away from a point is taken for it, if the
points are where the detector expects them. -/
theorem symBits_detectorAt (hle : ldM ≤ 8) {offset : K} (hoffset : offset ≤ 1 / 2) {x : Sample K}
    {i : Nat} (hi : i < 2 ^ ldM) {error : K} (herror : |error| < 1 / (2 * (2 ^ ldM : Nat)))
    (hnear : ∃ turns : ℤ, x.angle = (i + offset) / (2 ^ ldM : Nat) + error + turns) :
    (detectorAt ldM offset).symBits x = mpskMap (2 ^ ldM) i := by
  obtain ⟨turns, hangle⟩ := hnear
  obtain ⟨wraps, hwraps⟩ := Sector.wrap_eq x.angle
  have hwrap := Sector.neg_half_lt_wrap x.angle
  have hword : i < size32 := lt_two_pow_word hle hi
  have hsector := Sector.sector_of_near hi herror (turns + wraps + 1)
  unfold Detector.symBits detectorAt
  dsimp only
  generalize 2 ^ ldM = order at *
  have hfolded : x.atan2 + 1 + -(offset / order) + 1 / order / (2 : Nat) =
      i / order + error + 1 / (2 * order) + (turns + wraps + 1 : ℤ) := by
    rw [atan2_eq_wrap, hwraps, hangle]
    push_cast
    ring
  have hpos : (0 : K) < order := Nat.cast_pos.mpr (Nat.zero_lt_of_lt hi)
  -- the turn that is added makes the angle positive before the remainder
  have hnonneg : 0 ≤ x.atan2 + 1 + -(offset / order) + 1 / order / (2 : Nat) := by
    have hshift : offset / order ≤ 1 / 2 / order := div_le_div_of_nonneg_right hoffset hpos.le
    rw [div_right_comm] at hshift
    rw [atan2_eq_wrap, Nat.cast_ofNat]
    linarith
  change mpskMap order (Arithmetic.toUInt64 (Arithmetic.floor
    (Arithmetic.fmodOne (x.atan2 + 1 + -(offset / order) + 1 / order / (2 : Nat)) * order)) %
      size32 % order) = _
  rw [fmodOne_arithmetic hnonneg, hfolded, floor_arithmetic]
  change mpskMap order (Sector.sector order _ % size32 % order) = _
  rw [hsector, Nat.mod_eq_of_lt hword, Nat.mod_eq_of_lt hi]

theorem symBits_detector (hle : ldM ≤ 8) {x : Sample K} {i : Nat} (hi : i < 2 ^ ldM) {error : K}
    (herror : |error| < 1 / (2 * (2 ^ ldM : Nat))) (hnear : Near ldM i error x) :
    (detector ldM).symBits x = mpskMap (2 ^ ldM) i :=
  symBits_detectorAt hle (offsetPoints_le (2 ^ ldM)) hi herror hnear

end Detection

/-- A rotation moves the index, and the phase error is what the sample is off. -/
theorem Near.received {i : Nat} {x : Sample K} (hnear : Near ldM i 0 x) (ambiguity : Nat)
    (gain error : K) :
    Near ldM ((i + ambiguity) % 2 ^ ldM) error
      ⟨gain * x.amplitude, x.angle + ambiguity / (2 ^ ldM : Nat) + error⟩ := by
  obtain ⟨turns, hangle⟩ := hnear
  have horder : ((2 ^ ldM : Nat) : K) ≠ 0 := Nat.cast_ne_zero.mpr (Nat.two_pow_pos ldM).ne'
  refine ⟨turns + ((i + ambiguity) / 2 ^ ldM : Nat), ?_⟩
  dsimp only
  rw [hangle]
  generalize (offsetPoints (2 ^ ldM) : K) = offset
  generalize 2 ^ ldM = order at *
  have hdivision : (i : K) + ambiguity =
      ((i + ambiguity) % order : Nat) + order * ((i + ambiguity) / order : Nat) := by
    exact_mod_cast (Nat.mod_add_div (i + ambiguity) order).symm
  generalize (((i + ambiguity) % order : Nat) : K) = index at *
  generalize ((i + ambiguity) / order : Nat) = wraps at *
  push_cast
  field_simp
  linarith

section Bits

omit [IsStrictOrderedRing K] in
theorem createFromSample_eq (x : K) : createFromSample x = 2000 * x := by
  change ((2 : Nat) : K) * x / (1 / (1000 : Nat)) = 2000 * x
  rw [one_div, div_inv_eq_mul]
  push_cast
  ring

theorem createFromSample_pos (x : K) : 0 < createFromSample x ↔ 0 < x := by
  rw [createFromSample_eq]
  exact mul_pos_iff_of_pos_left (by norm_num)

theorem createFromSample_neg (x : K) : createFromSample x < 0 ↔ x < 0 := by
  rw [createFromSample_eq]
  constructor <;> intro h <;> linarith

omit [IsStrictOrderedRing K] in
theorem hardDecision_eq {x : K} (hx : HasSign x) : hardDecision x = decide (0 < x) := by
  unfold hardDecision
  rcases hx with hpos | hneg
  · simp [hpos, hpos.le]
  · simp [hneg.not_ge, hneg.not_gt]

/-- The soft bits of a detector. -/
def detected (det : Detector K) (samples : List (Sample K)) (p : Nat) : K :=
  (det.work samples).getD p 0

/-- The soft bits of the detector. -/
def softBits (ldM : Nat) (samples : List (Sample K)) (p : Nat) : K :=
  ((detector ldM).work samples).getD p 0

omit [IsStrictOrderedRing K] in
theorem length_symbol_detector (det : Detector K) (x : Sample K) :
    (det.symbol x).length = det.ldM := by
  simp [Detector.symbol]

omit [IsStrictOrderedRing K] in
theorem length_symbol (x : Sample K) : ((detector ldM).symbol x).length = ldM :=
  length_symbol_detector (detector ldM) x

variable {det : Detector K} {samples : List (Sample K)} {n : Nat} {x : Sample K}

omit [IsStrictOrderedRing K] in
/-- The soft bits of a sample carry the bits of its symbol. -/
theorem detected_eq (hldM : det.ldM = ldM) (hn : samples[n]? = some x) {j : Nat} (hj : j < ldM) :
    detected det samples (ldM * n + j) = createFromSample
      (if (det.symBits x).testBit (ldM - 1 - j) then x.magnitudeSquared
        else -x.magnitudeSquared) := by
  rw [detected, Detector.work, List.getD_eq_getElem?_getD,
    Grouping.getElem?_flatMap_blocks (fun x => (length_symbol_detector det x).trans hldM) _ _ hj,
    hn, Option.bind_some]
  simp [Detector.symbol, hldM, hj]

theorem detected_sign (hldM : det.ldM = ldM) (hn : samples[n]? = some x)
    (hamplitude : 0 < x.amplitude) {j : Nat} (hj : j < ldM) :
    HasSign (detected det samples (ldM * n + j)) ∧
      (0 < detected det samples (ldM * n + j) ↔
        (det.symBits x).testBit (ldM - 1 - j) = true) := by
  have hpos : 0 < x.magnitudeSquared := mul_pos hamplitude hamplitude
  rw [detected_eq hldM hn hj, HasSign, createFromSample_pos, createFromSample_neg]
  split
  next hbit => simp [hbit, hpos]
  next hbit => simp [hbit, hpos, hpos.le]

/-- Each resolved soft bit of a symbol has the sign of its bit, where the detector takes the
sample for the symbol with the rotation. -/
theorem hardDecision_detected (hpos : 0 < ldM) (hle : ldM ≤ 8) (hldM : det.ldM = ldM)
    (hn : samples[n]? = some x) (hamplitude : 0 < x.amplitude) {symbol : Nat}
    (hsymbol : symbol < 2 ^ ldM) {ambiguity : Nat} (hambiguity : ambiguity < 2 ^ ldM)
    (hdetected : det.symBits x =
      mpskMap (2 ^ ldM) ((mpskRevMap (2 ^ ldM) symbol + ambiguity) % 2 ^ ldM))
    {j : Nat} (hj : j < ldM) :
    hardDecision (convertBit ldM (detected det samples) ambiguity (ldM * n + j)) =
      symbol.testBit (ldM - 1 - j) := by
  have hmod := Nat.mod_lt (mpskRevMap (2 ^ ldM) symbol + ambiguity) (Nat.two_pow_pos ldM)
  have hword : symbolBits ldM (detected det samples) n =
      mpskMap (2 ^ ldM) ((mpskRevMap (2 ^ ldM) symbol + ambiguity) % 2 ^ ldM) :=
    convertToChar_eq hle (mpskMap_lt hmod) fun i hi =>
      hdetected ▸ (detected_sign hldM hn hamplitude hi).2
  obtain ⟨hsign, -⟩ := detected_sign hldM hn hamplitude hj
  have hdiv : (ldM * n + j) / ldM = n := by
    rw [Nat.mul_add_div hpos, Nat.div_eq_of_lt hj, Nat.add_zero]
  have hbit := pos_convertBit hpos hle ambiguity hsign
  rw [hdiv, symbolIndex, hword, mpskRevMap_mpskMap hle hmod,
    rotateBack_add_mod (mpskRevMap_lt hsymbol) hambiguity, mpskMap_mpskRevMap hle hsymbol,
    Nat.mul_add_mod, Nat.mod_eq_of_lt hj] at hbit
  rw [hardDecision_eq (hsign.of_magnitude (magnitude_convertBit hsign _))]
  exact Bool.eq_iff_iff.mpr (decide_eq_true_iff.trans hbit)

theorem hardDecision_convertBit (hpos : 0 < ldM) (hle : ldM ≤ 8) (hn : samples[n]? = some x)
    (hamplitude : 0 < x.amplitude) {symbol : Nat} (hsymbol : symbol < 2 ^ ldM) {ambiguity : Nat}
    (hambiguity : ambiguity < 2 ^ ldM) {error : K} (herror : |error| < 1 / (2 * (2 ^ ldM : Nat)))
    (hnear : Near ldM ((mpskRevMap (2 ^ ldM) symbol + ambiguity) % 2 ^ ldM) error x)
    {j : Nat} (hj : j < ldM) :
    hardDecision (convertBit ldM (softBits ldM samples) ambiguity (ldM * n + j)) =
      symbol.testBit (ldM - 1 - j) :=
  have hmod := Nat.mod_lt (mpskRevMap (2 ^ ldM) symbol + ambiguity) (Nat.two_pow_pos ldM)
  hardDecision_detected hpos hle rfl hn hamplitude hsymbol hambiguity
    (symBits_detector hle hmod herror hnear) hj

end Bits

/-- The chain gives back the bits of the symbols, for every rotation that the resolver undoes
and phase errors of less than half a point distance. -/
theorem chain_eq (hpos : 1 ≤ ldM) (hle : ldM ≤ 8) {ambiguity : Nat}
    (hambiguity : ambiguity < 2 ^ ldM) (symbols : List UInt8)
    (hsymbols : ∀ symbol ∈ symbols, symbol.toNat < 2 ^ ldM) (gain error : Nat → K)
    (hgain : ∀ n < symbols.length, 0 < gain n)
    (herror : ∀ n < symbols.length, |error n| < 1 / (2 * (2 ^ ldM : Nat))) :
    chain ldM ambiguity gain error symbols = some (symbols.flatMap (msbFirst ldM)) := by
  obtain ⟨mod, hmod, hsent⟩ := modulator_make (K := K) hle
  have hbits : ∀ symbol, (msbFirst ldM symbol).length = ldM := by
    intro symbol
    simp [msbFirst]
  simp only [chain, hmod, detector_make hle, Option.bind_eq_bind, Option.bind_some]
  refine congrArg some ?_
  have hlength : ((detector ldM).work (received (2 ^ ldM) ambiguity gain error
      (mod.work symbols))).length = ldM * symbols.length := by
    rw [Detector.work, Grouping.length_flatMap_blocks length_symbol]
    simp [received, Modulator.work]
  rw [hlength]
  apply List.ext_getElem?
  intro p
  by_cases hp : p < ldM * symbols.length
  · have hn : p / ldM < symbols.length := Nat.div_lt_of_lt_mul hp
    -- the soft bit is one of the `ldM` bits of its symbol
    have hj : p % ldM < ldM := Nat.mod_lt p hpos
    have hsymbol := List.getElem?_eq_getElem hn
    have hlt := hsymbols _ (List.getElem_mem hn)
    obtain ⟨x, hx, hamplitude, hnear⟩ := hsent symbols _ _ hsymbol hlt
    have hsample : (received (2 ^ ldM) ambiguity gain error (mod.work symbols))[p / ldM]? =
        some ⟨gain (p / ldM) * x.amplitude,
          x.angle + ambiguity / (2 ^ ldM : Nat) + error (p / ldM)⟩ := by
      simp [received, hx]
    have hdecision := hardDecision_convertBit hpos hle hsample
      (mul_pos (hgain _ hn) (hamplitude ▸ one_pos)) hlt hambiguity (herror _ hn)
      (hnear.received ambiguity _ _) hj
    rw [Nat.div_add_mod] at hdecision
    have hblock := Grouping.getElem?_flatMap_blocks hbits symbols (p / ldM) hj
    rw [Nat.div_add_mod, hsymbol, Option.bind_some] at hblock
    rw [hblock, List.getElem?_map, List.getElem?_range hp, Option.map_some,
      convertAmbiguity_of_lt _ (Nat.dvd_mul_right _ _) _ hp]
    change some (hardDecision (convertBit ldM (softBits ldM _) ambiguity p)) = _
    rw [hdecision]
    simp [msbFirst, hj]
  · rw [List.getElem?_eq_none (by simpa using hp), List.getElem?_eq_none]
    rw [Grouping.length_flatMap_blocks hbits]
    exact Nat.le_of_not_lt hp

/-- Two symbols of QPSK, rotated by three points. -/
theorem chain_eq_qpsk :
    chain 2 3 (fun _ => 2) (fun n => if n = 0 then (1 / 10 : ℚ) else -(1 / 10)) [0x01, 0x02] =
      some [false, true, true, false] := by
  refine chain_eq (by decide) (by decide) (by decide) _ (by simp) _ _ ?_ ?_
  · intro n hn
    norm_num
  · intro n hn
    split <;> norm_num [abs_of_pos]

end Exact

end GrCcsds.Ambiguity
