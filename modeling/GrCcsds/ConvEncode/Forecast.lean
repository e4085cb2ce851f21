import GrCcsds.ConvEncode.Stream
import GrCcsds.Foundation.Rounding
import GrCcsds.Utils
import Mathlib.Data.Rat.Floor
import Mathlib.Tactic.NormNum

/-! # The forecast of the encoder

Between two calls the buffer holds what the bytes of the current cycle of the
puncturing pattern have added to whole output bytes. This is at most one byte,
so the subtraction in `forecast` does not wrap. The request is computed in
single precision.
-/

namespace GrCcsds.ConvEncode

open Utils Foundation Foundation.Bits

/-- `static_cast<float>` and the rounding of the operations on `float`. -/
def float32 (x : ℚ) : ℚ := Format.binary32.round x

def getRate : Punct → ℚ
  | .none => float32 (1 / 2)
  | .ecss23 => float32 (2 / 3)
  | .ecss34 => float32 (3 / 4)
  | .ecss56 => float32 (5 / 6)
  | .ecss78 => float32 (7 / 8)

/-- The number of bits that `forecast` computes for the requested output. -/
def numBytesReq (s : State) (noutputItems : Nat) : Nat :=
  minusWrap (noutputItems * 8) s.bufferCount

/-- `forecast` returns the number of input bytes that it requests. -/
def forecast (cfg : Config) (s : State) (noutputItems : Nat) : Int :=
  let numInputBytes := float32 (float32 (float32 (numBytesReq s noutputItems) *
    getRate cfg.punctType) / 8)
  ⌈numInputBytes⌉

/-- The number of input bytes after which the pattern starts again with a byte. -/
def cycle : Punct → Nat
  | .none => 1
  | .ecss23 => 2
  | .ecss34 => 3
  | .ecss56 => 5
  | .ecss78 => 7

/-- The number of bits that are kept of the first bytes of a cycle. -/
def keptBits (puncturing : Punct) (numBytes : Nat) : Nat :=
  (ConvolutionalCode.puncture (getPattern puncturing) 0
    (List.replicate (16 * numBytes) false)).length

/-- The bytes of a cycle add up to one more byte, which is complete with the last of them. -/
theorem keptBits_cycle : ∀ puncturing,
    keptBits puncturing (cycle puncturing) = 8 * cycle puncturing + 8 ∧
      16 * cycle puncturing % getPatternLen puncturing = 0 ∧
      ∀ r < cycle puncturing, keptBits puncturing r < 8 * r + 8 := by
  intro puncturing
  cases puncturing <;> decide +kernel

theorem keptBits_succ {puncturing : Punct} {r phase : Nat}
    (hphase : phase % getPatternLen puncturing = 16 * r % getPatternLen puncturing)
    {coded : List Bool} (hlength : coded.length = 16) :
    keptBits puncturing (r + 1) = keptBits puncturing r +
      (ConvolutionalCode.puncture (getPattern puncturing) phase coded).length := by
  rw [keptBits, Nat.mul_succ, List.replicate_add, ConvolutionalCode.puncture_append,
    List.length_append, List.length_replicate, Nat.zero_add, keptBits,
    ← ConvolutionalCode.puncture_mod (16 * r), ← ConvolutionalCode.puncture_mod phase,
    length_getPattern, hphase]
  exact congrArg (_ + ·) (ConvolutionalCode.length_puncture_congr _
    ((List.length_replicate).trans hlength.symm))

/-- The buffer holds what some bytes of a cycle have added to whole bytes. -/
def Level (puncturing : Punct) (bits : List Bool) (bufferCount : Nat) : Prop :=
  ∃ r ≤ cycle puncturing,
    2 * bits.length % getPatternLen puncturing = 16 * r % getPatternLen puncturing ∧
      bufferCount + 8 * r = keptBits puncturing r

theorem level_initial (puncturing : Punct) : Level puncturing [] State.initial.bufferCount :=
  ⟨0, Nat.zero_le _, rfl, rfl⟩

theorem Level.le_eight {puncturing : Punct} {bits : List Bool} {bufferCount : Nat}
    (hlevel : Level puncturing bits bufferCount) : bufferCount ≤ 8 := by
  obtain ⟨r, hr, -, hcount⟩ := hlevel
  obtain ⟨hlast, -, hbefore⟩ := keptBits_cycle puncturing
  rcases Nat.lt_or_eq_of_le hr with hlt | rfl
  · have hless := hbefore r hlt
    omega
  · omega

/-- A complete byte in the buffer ends a cycle. -/
theorem Level.flush {puncturing : Punct} {bits : List Bool} {bufferCount : Nat}
    (hlevel : Level puncturing bits bufferCount) (hbyte : 8 ≤ bufferCount) :
    Level puncturing bits (bufferCount - 8) := by
  obtain ⟨r, hr, hphase, hcount⟩ := hlevel
  obtain ⟨hlast, hstart, hbefore⟩ := keptBits_cycle puncturing
  rcases Nat.lt_or_eq_of_le hr with hlt | rfl
  · have hless := hbefore r hlt
    omega
  · refine ⟨0, Nat.zero_le _, ?_, ?_⟩
    · rw [hphase, hstart, Nat.mul_zero, Nat.zero_mod]
    · change bufferCount - 8 + 8 * 0 = 0
      omega

/-- One more byte, of which at least one whole byte is output. -/
theorem Level.append {puncturing : Punct} {bits next coded : List Bool} {before after : Nat}
    (hlevel : Level puncturing bits before) (hcount : before < 8) (hnext : next.length = 8)
    (hcoded : coded.length = 16) (numOut : Nat) (hpos : 0 < numOut)
    (hsum : after + 8 * numOut = before + (ConvolutionalCode.puncture (getPattern puncturing)
      (2 * bits.length) coded).length) :
    Level puncturing (bits ++ next) after := by
  obtain ⟨r, hr, hphase, hkept⟩ := hlevel
  obtain ⟨hlast, hstart, hbefore⟩ := keptBits_cycle puncturing
  have hsucc := keptBits_succ hphase hcoded
  have hless : r < cycle puncturing := by
    rcases Nat.lt_or_eq_of_le hr with hlt | rfl
    · exact hlt
    · omega
  have hadvance : 2 * (bits ++ next).length % getPatternLen puncturing =
      16 * (r + 1) % getPatternLen puncturing := by
    rw [List.length_append, hnext, Nat.mul_add, Nat.mul_succ 16, Nat.add_mod, hphase,
      ← Nat.add_mod]
  by_cases hone : numOut = 1
  · exact ⟨r + 1, hless, hadvance, by omega⟩
  · -- two bytes are complete at the end of the cycle only
    obtain hend : r + 1 = cycle puncturing := by
      rcases Nat.lt_or_eq_of_le (Nat.succ_le_of_lt hless) with hlt | heq
      · have hfew := hbefore (r + 1) hlt
        omega
      · exact heq
    rw [hend] at hsucc hadvance
    refine ⟨0, Nat.zero_le _, ?_, ?_⟩
    · rw [hadvance, hstart, Nat.mul_zero, Nat.zero_mod]
    · change after + 8 * 0 = 0
      omega

variable {genPolyC1 genPolyC2 : BitVec 8} {puncturing : Punct}

theorem Streams.length {bits : List Bool} {out : List UInt8} {s : State}
    (hstreams : Streams genPolyC1 genPolyC2 puncturing bits out s) :
    8 * out.length + s.bufferCount = (coded genPolyC1 genPolyC2 puncturing bits).length := by
  have hlength := congrArg List.length hstreams.stream
  rwa [List.length_append, length_ofBytes, high, length_low] at hlength

/-- One iteration of the outer loop keeps the level. -/
theorem Level.encodeByte {bits : List Bool} {out emitted : List UInt8} {s next : State}
    (hlevel : Level puncturing bits s.bufferCount)
    (hstreams : Streams genPolyC1 genPolyC2 puncturing bits out s) (hcount : s.bufferCount < 8)
    {room : Nat} (hroom : 0 < room) (inputByte : UInt8)
    (hnext : Streams genPolyC1 genPolyC2 puncturing (bits ++ low 8 inputByte.toBitVec)
      (out ++ emitted) next)
    (hcomplete : emitted.length = room ∨ next.bufferCount < 8) :
    Level puncturing (bits ++ low 8 inputByte.toBitVec) next.bufferCount := by
  have hserial : (serial genPolyC1 genPolyC2 bits.reverse (low 8 inputByte.toBitVec)).length =
      16 := by
    rw [length_serial, length_low]
  have hkept := eight_le_length_puncture puncturing (2 * bits.length) hserial
  have hlength := hnext.length
  rw [coded_append, List.length_append, List.length_append, ← hstreams.length] at hlength
  refine hlevel.append hcount (length_low _ _) hserial emitted.length ?_ ?_
  · rcases hcomplete with hfull | hfew <;> omega
  · omega

theorem level_maintained : Maintained genPolyC1 genPolyC2 puncturing fun bits out s =>
    Streams genPolyC1 genPolyC2 puncturing bits out s ∧ Level puncturing bits s.bufferCount where
  encodeByte := by
    rintro bits out s ⟨hstreams, hlevel⟩ hcount room hroom inputByte
    obtain ⟨next, emitted, hencode, hnext, -, hcomplete⟩ :=
      hstreams.encodeByte hcount hroom inputByte
    have hlevelNext := hlevel.encodeByte hstreams hcount hroom inputByte hnext hcomplete
    exact ⟨next, emitted, hencode, ⟨hnext, hlevelNext⟩, hcomplete⟩
  flush := by
    rintro bits out s ⟨hstreams, hlevel⟩ hbyte
    exact ⟨hstreams.count_lt, hstreams.flush hbyte, hlevel.flush hbyte⟩

theorem float32_nonneg {x : ℚ} (hx : 0 ≤ x) : 0 ≤ float32 x := Format.binary32.round_nonneg hx

/-- A coarse bound on the rounding error. -/
theorem float32_le {x : ℚ} (hx : 0 ≤ x) : float32 x ≤ x * (1001 / 1000) + 1 / 1000 := by
  have hround : float32 x ≤
      x + (x * 2 ^ (1 - (24 : Int)) + 2 ^ (-126 + 1 - (24 : Int))) / 2 :=
    Format.binary32.round_le hx
  have hunit : (2 : ℚ) ^ (1 - (24 : Int)) ≤ 1 / 1000 := by norm_num
  have hleast : (2 : ℚ) ^ (-126 + 1 - (24 : Int)) ≤ 1 / 1000 := by norm_num
  have hrelative := mul_le_mul_of_nonneg_left hunit hx
  linarith

theorem getRate_nonneg (puncturing : Punct) : 0 ≤ getRate puncturing := by
  cases puncturing <;> exact float32_nonneg (by norm_num)

theorem getRate_le (puncturing : Punct) : getRate puncturing ≤ 877 / 1000 := by
  have hrate (x : ℚ) (hx : 0 ≤ x) (hle : x ≤ 7 / 8) : float32 x ≤ 877 / 1000 := by
    have hround := float32_le hx
    linarith
  cases puncturing <;> exact hrate _ (by norm_num) (by norm_num)

/-- The product of the request and the rate stays below an eighth of the bits. -/
theorem forecast_le (cfg : Config) {s : State} {noutputItems : Nat} (hpos : 1 ≤ noutputItems)
    (hbits : numBytesReq s noutputItems ≤ 8 * noutputItems) :
    0 ≤ forecast cfg s noutputItems ∧ forecast cfg s noutputItems ≤ noutputItems := by
  have hrate := getRate_nonneg cfg.punctType
  have hitems : (1 : ℚ) ≤ noutputItems := Nat.one_le_cast.mpr hpos
  have hreq : (numBytesReq s noutputItems : ℚ) ≤ 8 * noutputItems := by exact_mod_cast hbits
  have hfloat := float32_nonneg (Nat.cast_nonneg (α := ℚ) (numBytesReq s noutputItems))
  have hproduct := float32_nonneg (mul_nonneg hfloat hrate)
  have hquotient : 0 ≤ float32 (float32 (numBytesReq s noutputItems) *
      getRate cfg.punctType) / 8 := div_nonneg hproduct (by norm_num)
  refine ⟨Int.ceil_nonneg (float32_nonneg hquotient), Int.ceil_le.mpr ?_⟩
  have hfloatLe := float32_le (Nat.cast_nonneg (α := ℚ) (numBytesReq s noutputItems))
  have hproductLe := float32_le (mul_nonneg hfloat hrate)
  have hquotientLe := float32_le hquotient
  have hscaled : float32 (numBytesReq s noutputItems) * getRate cfg.punctType ≤
      (8009 / 1000 * noutputItems) * (877 / 1000) :=
    mul_le_mul (by linarith) (getRate_le cfg.punctType) hrate (by linarith)
  rw [Int.cast_natCast]
  linarith

/-- In every run the buffered bits are at most those of the requested output, so the request of
`forecast` does not wrap and is at most one input byte for each output byte. -/
theorem forecast_within (genPolyC1 genPolyC2 : BitVec 8) (puncturing : Punct)
    (calls : List Call) (stream : List UInt8) {noutputItems : Nat} (hpos : 1 ≤ noutputItems)
    (hint : noutputItems < 2 ^ 31) :
    let s := (runCalls (.make genPolyC1 genPolyC2 puncturing) calls .initial stream).state
    s.bufferCount ≤ 8 * noutputItems ∧
      numBytesReq s noutputItems = 8 * noutputItems - s.bufferCount ∧
      0 ≤ forecast (.make genPolyC1 genPolyC2 puncturing) s noutputItems ∧
      forecast (.make genPolyC1 genPolyC2 puncturing) s noutputItems ≤ noutputItems := by
  intro s
  obtain ⟨_, hrun, -, hlevel⟩ := level_maintained.runCalls
    ⟨streams_initial genPolyC1 genPolyC2 puncturing, level_initial puncturing⟩ calls stream
  have hcount : s.bufferCount ≤ 8 := by
    subst hrun
    exact hlevel.le_eight
  have hle : s.bufferCount ≤ 8 * noutputItems := by omega
  have hreq : numBytesReq s noutputItems = 8 * noutputItems - s.bufferCount := by
    rw [numBytesReq, minusWrap, size64]
    omega
  exact ⟨hle, hreq, forecast_le _ hpos (hreq ▸ Nat.sub_le _ _)⟩

theorem forecast_within_byte :
    let s := (runCalls (.make 0x4F#8 0x6D#8 .none) [⟨1, 1⟩] .initial [0x1A]).state
    s.bufferCount = 8 ∧ numBytesReq s 1 = 0 ∧ forecast (.make 0x4F#8 0x6D#8 .none) s 1 ≤ 1 := by
  intro s
  obtain ⟨-, hreq, -, hle⟩ :=
    forecast_within 0x4F#8 0x6D#8 .none [⟨1, 1⟩] [0x1A] (Nat.le_refl 1) (by decide)
  have hcount : s.bufferCount = 8 := by decide
  refine ⟨hcount, ?_, hle⟩
  rw [hreq, hcount]

end GrCcsds.ConvEncode
