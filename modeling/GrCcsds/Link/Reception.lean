import GrCcsds.Converters.Agreement
import GrCcsds.Link.SoftBits

/-! # Reception

Frames behind their ASMs go through a modulator, a channel with a carrier that
the loop captures, the loop, a detector, the resolver and the conversion into
bytes. However the calls of the loop and of the resolver cut their streams, the
frames arrive in their order, from the first one on.
-/

namespace GrCcsds.Link

open Utils Foundation Foundation.Bits Foundation.WhileLoop
open Ambiguity Converters LoopFilter Pll Softbits

variable {K : Type} [Field K] [LinearOrder K] [FloorRing K]

open scoped ExactNumbers

/-- The bits from a position on are the ASM. -/
def Marks (cfg : Config K) (bit : Nat → Bool) (position : Nat) : Prop :=
  ∀ i < cfg.asmLenBits, bit (position + i) = decide (cfg.asm i = 1)

/-- A stream of symbols whose bits are frames, each behind an ASM. A rotation by less points
than the ambiguity does not put an ASM where a search can see it. -/
structure Framed (cfg : Config K) (ambiguity : Nat) (symbols : Nat → UInt8)
    (frames : Nat → List UInt8) : Prop where
  symbols_lt : ∀ n, (symbols n).toNat < 2 ^ cfg.ldM
  asm : ∀ k, Marks cfg (sentBit cfg.ldM symbols) (k * cfg.period)
  frame : ∀ k, ((List.range cfg.messageLen).map fun i =>
    sentBit cfg.ldM symbols (cfg.asmLenBits + k * cfg.period + i)) = ofBytes (frames k)
  distinct : ∀ rotation, 0 < rotation → rotation ≤ ambiguity → ∀ p ≤ cfg.searchLenMax,
    ¬ Marks cfg (rotatedBit cfg.ldM rotation symbols) p

variable [IsStrictOrderedRing K] {cfg : Config K} {ambiguity : Nat} {symbols : Nat → UInt8}
  {frames : Nat → List UInt8} {gain : Nat → K}

section Bits

theorem mul_eq_abs_iff {a x : K} (ha : a = 1 ∨ a = -1) (hx : HasSign x) :
    a * x = |x| ↔ (0 < x ↔ a = 1) := by
  have hone : (-1 : K) ≠ 1 := by norm_num
  rcases ha with rfl | rfl <;> rcases hx with hpos | hneg
  · simp [abs_of_pos hpos, hpos]
  · simp only [abs_of_neg hneg, one_mul, hneg.not_gt, iff_true, iff_false]
    exact fun heq => by linarith
  · simp only [abs_of_pos hpos, neg_one_mul, hpos, hone, iff_false, not_true]
    exact fun heq => by linarith
  · simp [abs_of_neg hneg, hneg.not_gt, hone]

omit [IsStrictOrderedRing K] in
theorem mul_le_abs {a : K} (ha : a = 1 ∨ a = -1) (x : K) : a * x ≤ |x| := by
  rcases ha with rfl | rfl
  · exact (one_mul x).trans_le (le_abs_self x)
  · exact (neg_one_mul x).trans_le (neg_le_abs x)

variable {bit : Nat → Bool} {input : Nat → K} {p : Nat}

/-- The bits of the ASM at a position. -/
theorem checkForAsm_eq_one_of_marks (hasm : cfg.Bipolar)
    (hinput : ∀ p, HasSign (input p) ∧ (0 < input p ↔ bit p = true))
    (hstrong : ∀ p, 1 ≤ |input p|) (hmarks : Marks cfg bit p) : checkForAsm cfg input p = 1 := by
  refine checkForAsm_eq_one (fun i hi => ?_) fun i _ => hstrong _
  rw [mul_eq_abs_iff (hasm i hi) (hinput _).1, (hinput _).2, Nat.add_comm i p, hmarks i hi,
    decide_eq_true_iff]

theorem checkForAsm_lt_one_of_not_marks (hasm : cfg.Bipolar)
    (hinput : ∀ p, HasSign (input p) ∧ (0 < input p ↔ bit p = true))
    (hmarks : ¬ Marks cfg bit p) : checkForAsm cfg input p < 1 := by
  simp only [Marks, not_forall] at hmarks
  obtain ⟨i, hi, hother⟩ := hmarks
  refine checkForAsm_lt_one hasm ⟨i, hi, lt_of_le_of_ne (mul_le_abs (hasm i hi) _) fun heq => ?_⟩
  rw [mul_eq_abs_iff (hasm i hi) (hinput _).1, (hinput _).2, Nat.add_comm i p] at heq
  exact hother (Bool.eq_iff_iff.mpr (heq.trans decide_eq_true_iff.symm))

end Bits

section Framed

variable (hframed : Framed cfg ambiguity symbols frames) (hgain : ∀ n, 0 < gain n)
  (hambiguity : ambiguity < cfg.order)

include hframed hgain hambiguity

/-- The bits in another ambiguity. -/
theorem converted_receivedSoft {other : Nat} (hother : other ≤ ambiguity) (p : Nat) :
    let x := converted cfg (receivedSoft cfg.ldM ambiguity symbols gain) other p
    HasSign x ∧ (0 < x ↔ rotatedBit cfg.ldM (ambiguity - other) symbols p = true) :=
  convertBit_receivedSoft cfg.ldM_pos cfg.ldM_le hframed.symbols_lt hgain hambiguity hother p

theorem converted_sent (p : Nat) :
    let x := converted cfg (receivedSoft cfg.ldM ambiguity symbols gain) ambiguity p
    HasSign x ∧ (0 < x ↔ sentBit cfg.ldM symbols p = true) := by
  have hbits := converted_receivedSoft hframed hgain hambiguity le_rfl p
  rwa [Nat.sub_self, rotatedBit_zero cfg.ldM_le hframed.symbols_lt] at hbits

theorem acquirable_receivedSoft (hasm : cfg.Bipolar) (hthreshold : cfg.correlationThreshold < 1)
    (hstrong : ∀ n, 1 ≤ 2000 * gain n ^ 2) :
    Acquirable cfg (receivedSoft cfg.ldM ambiguity symbols gain) 0 ambiguity 1 := by
  have hloud : ∀ p, 1 ≤ |converted cfg (receivedSoft cfg.ldM ambiguity symbols gain) ambiguity p| :=
    fun p => (hstrong _).trans_eq (abs_convertBit_receivedSoft hgain ambiguity p).symm
  have hfound : ∀ k, checkForAsm cfg (converted cfg (receivedSoft cfg.ldM ambiguity symbols gain)
      ambiguity) (k * cfg.period) = 1 :=
    fun k => checkForAsm_eq_one_of_marks hasm (converted_sent hframed hgain hambiguity) hloud
      (hframed.asm k)
  constructor
  · exact hambiguity
  · simpa using hfound 0
  · exact hthreshold
  · exact fun _ _ p hp => absurd hp (Nat.not_lt_zero p)
  · intro other _ p _ hp
    refine ⟨checkForAsm_le_one hasm _ _, fun hless => ?_⟩
    refine checkForAsm_lt_one_of_not_marks hasm
      (converted_receivedSoft hframed hgain hambiguity hless.le) ?_
    exact hframed.distinct _ (Nat.sub_pos_of_lt hless) (Nat.sub_le _ _) p (by omega)
  · intro n
    have hnext : 0 + cfg.asmLenBits + n * cfg.period + cfg.messageLen = (n + 1) * cfg.period := by
      rw [Nat.succ_mul, Config.period]
      omega
    rw [hnext, hfound]
    exact hthreshold

/-- The message of a frame of the lock is turned into the bytes of the frame. -/
theorem processMessage_frame {Other : Type} {tags : List (Ambiguity.Tag K)} {k number : Nat}
    {correlation : K} {message : Ambiguity.Message K}
    (hmessage : IsFrame cfg (receivedSoft cfg.ldM ambiguity symbols gain) tags
      (cfg.asmLenBits + k * cfg.period) ambiguity number correlation message)
    (header : Messages.Header Other) :
    SoftToHard.processMessage false (softMessage header message.bits) =
      (false, [.pair (some header) (.blob (frames k))]) := by
  have hbits : message.bits.map hardDecision = ofBytes (frames k) := by
    rw [hmessage.bits, List.map_map, ← hframed.frame k]
    refine List.map_congr_left fun i _ => ?_
    obtain ⟨hsign, hpos⟩ :=
      converted_sent hframed hgain hambiguity (cfg.asmLenBits + k * cfg.period + i)
    rw [Function.comp_apply, hardDecision_eq hsign]
    exact Bool.eq_iff_iff.mpr (decide_eq_true_iff.trans hpos)
  have hbytes : 8 ∣ message.bits.length := by
    have hlength := congrArg List.length hbits
    rw [List.length_map, length_ofBytes] at hlength
    exact ⟨_, hlength⟩
  rw [SoftToHard.processMessage_eq hbytes, hbits, toBytes_ofBytes]

end Framed

/-- The loop, however it is called, passes on the soft bits of the rotated symbols. -/
theorem exists_run_softBits (float : ComplexFloat K) {loopBandwidth bound : K} {ldM : Nat}
    {channel c : Carrier K} (hbw : 0 < loopBandwidth) (hlt : loopBandwidth < 3 / 4)
    (hpos : 0 < ldM) (hle : ldM ≤ 8)
    (hsymbols : ∀ n, (symbols n).toNat < 2 ^ ldM) (hgain : ∀ n, Storable (2 ^ ldM) (gain n))
    (hbehind : c.Behind (2 ^ ldM) ambiguity channel)
    (hcaptured : c.Captured (2 ^ ldM) (Block.make (2 ^ ldM) loopBandwidth).filter bound) :
    ∃ mod, Modulator.make (2 ^ ldM) = some mod ∧ ∀ calls, ∃ last,
      Ends (fun fuel =>
        Transition.run (fun s call => s.step float fuel (transmitted mod symbols gain channel) call)
          (Session.start (Block.make (2 ^ ldM) loopBandwidth)) calls) last ∧
      last.consumed = (calls.map fun call => min call.noutputItems call.ninputItems).sum ∧
      (detectorAt ldM 0).work last.out =
        (List.range (ldM * last.consumed)).map (receivedSoft ldM ambiguity symbols gain) := by
  have hgains : (Block.make (2 ^ ldM) loopBandwidth).filter.Stable 1 :=
    (designable_default hbw hlt).stable one_pos
  obtain ⟨mod, hmod, hamplitude, hreceived⟩ := received_transmitted hle hsymbols hgain hbehind
  refine ⟨mod, hmod, fun calls => ?_⟩
  obtain ⟨last, hends, hlocked, hconsumed⟩ :=
    exists_run_locked float (Nat.two_pow_pos ldM) hgains hcaptured hreceived calls
  refine ⟨last, hends, hconsumed, ?_⟩
  rw [← hlocked.length_out]
  refine work_eq_receivedSoft hpos rfl fun n hn => ?_
  obtain ⟨x, hx, hcorrected⟩ := hlocked.corrected n (hlocked.length_out ▸ hn)
  have herror := (hcaptured.abs_error_le hgains n).trans_lt (hcaptured.bound_lt hgains)
  exact ⟨x, hx, hcorrected.1.trans (hamplitude n), symBits_corrected hle hcorrected herror⟩

/-- A log of one lock whose messages are turned into the first frames. -/
structure Arrived (Other : Type) (cfg : Config K) (ambiguity : Nat) (frames : Nat → List UInt8)
    (log : List (Event K)) (messages : List (Ambiguity.Message K)) : Prop where
  log_eq : log = .locked cfg.asmLenBits ambiguity 1 1 :: messages.map .message
  bytes : ∀ (k : Nat) (message : Ambiguity.Message K), messages[k]? = some message →
    ∀ header : Messages.Header Other,
      SoftToHard.processMessage false (softMessage header message.bits) =
        (false, [.pair (some header) (.blob (frames k))])

theorem arrived_of_log (hframed : Framed cfg ambiguity symbols frames) (hgain : ∀ n, 0 < gain n)
    (hambiguity : ambiguity < cfg.order) {tags : List (Ambiguity.Tag K)} {m : Machine K}
    (htracks : Machine.Tracks cfg (receivedSoft cfg.ldM ambiguity symbols gain) tags m)
    {messages : List (Ambiguity.Message K)}
    (hlog : m.log = .locked (0 + cfg.asmLenBits) ambiguity 1 1 :: messages.map .message)
    (Other : Type) : Arrived Other cfg ambiguity frames m.log messages := by
  rw [Nat.zero_add] at hlog
  exact ⟨hlog, fun k message hmessage header => processMessage_frame hframed hgain hambiguity
    (Machine.isFrame_of_log htracks hlog hmessage) header⟩

/-- The loop and the resolver are only connected by a stream of soft bits. Every run of the loop
outputs the begin of this stream, and every run of the resolver on it sends the frames, all of
them that a call has shown completely. -/
theorem link_delivers (Other : Type) (float : ComplexFloat K) {loopBandwidth bound : K}
    {channel c : Carrier K} (hbw : 0 < loopBandwidth) (hlt : loopBandwidth < 3 / 4)
    (hasm : cfg.Bipolar)
    (hlow : -1 ≤ cfg.correlationThreshold) (hhigh : cfg.correlationThreshold < 1)
    (hgain : ∀ n, Storable cfg.order (gain n)) (hstrong : ∀ n, 1 ≤ 2000 * gain n ^ 2)
    (hambiguity : ambiguity < cfg.order) (hframed : Framed cfg ambiguity symbols frames)
    (hbehind : c.Behind cfg.order ambiguity channel)
    (hcaptured : c.Captured cfg.order (Block.make cfg.order loopBandwidth).filter bound) :
    ∃ mod det, Modulator.make cfg.order = some mod ∧ Detector.make cfg.order 0 = some det ∧
    ∃ stream : Nat → K,
      (∀ calls, ∃ last,
        Ends (fun fuel =>
          Transition.run
            (fun s call => s.step float fuel (transmitted mod symbols gain channel) call)
            (Session.start (Block.make cfg.order loopBandwidth)) calls) last ∧
        last.consumed = (calls.map fun call => min call.noutputItems call.ninputItems).sum ∧
        det.work last.out = (List.range (cfg.ldM * last.consumed)).map stream) ∧
      ∀ tags m, Transition.Reachable (Machine.step cfg stream tags) (fun _ _ => True) .start m →
        (m.log = [] ∨ ∃ messages, Arrived Other cfg ambiguity frames m.log messages) ∧
        ∀ numInput numConsumed next, m.point = .loop numInput numConsumed →
          m.step cfg stream tags .proceed = some next → next.point = .idle →
          ∀ k, cfg.asmLenBits + k * cfg.period + cfg.messageLen ≤
              cfg.lower (m.nitemsRead + numInput) →
            ∃ messages, Arrived Other cfg ambiguity frames next.log messages ∧
              k < messages.length := by
  have hpos := fun n => (hgain n).pos
  obtain ⟨mod, hmod, hruns⟩ := exists_run_softBits float hbw hlt cfg.ldM_pos cfg.ldM_le
    hframed.symbols_lt hgain hbehind hcaptured
  have hacquirable := acquirable_receivedSoft hframed hpos hambiguity hasm hhigh hstrong
  refine ⟨mod, detectorAt cfg.ldM 0, hmod, detectorAt_make cfg.ldM_le 0,
    receivedSoft cfg.ldM ambiguity symbols gain, hruns, fun tags m hreachable => ⟨?_, ?_⟩⟩
  · rcases Machine.acquired_log hacquirable hasm hlow hreachable with hnone | ⟨messages, hlog, -⟩
    · exact .inl hnone
    · exact .inr ⟨messages, arrived_of_log hframed hpos hambiguity
        (Machine.tracks_of_reachable hreachable) hlog Other⟩
  · intro numInput numConsumed next hpoint hstep hidle k hshown
    obtain ⟨messages, hlog, hsent⟩ := Machine.acquired_sent hacquirable hasm hlow hreachable
      hpoint hstep hidle (k := k) (by rwa [Nat.zero_add])
    exact ⟨messages, arrived_of_log hframed hpos hambiguity
      (Machine.tracks_of_reachable (hreachable.step trivial hstep)) hlog Other, hsent⟩

section Example

/-- BPSK with an ASM of two ones. -/
def onesConfig : Config ℚ := { twoBitConfig with asm := asmOfBytes fun _ => 0xC0 }

/-- Frames with the byte `0x55` behind their ASMs. -/
def alternating (n : Nat) : UInt8 := if n % 10 = 0 ∨ n % 2 = 1 then 1 else 0

theorem alternating_add (k i : Nat) : alternating (k * 10 + i) = alternating i := by
  have htwo : (k * 10 + i) % 2 = i % 2 := by omega
  rw [alternating, alternating, Nat.mul_add_mod_self_right, htwo]

theorem framed_alternating : Framed onesConfig 1 alternating fun _ => [0x55] where
  symbols_lt := by
    intro n
    unfold alternating
    split <;> decide
  asm := by
    intro k i hi
    have hfirst : Marks onesConfig (sentBit onesConfig.ldM alternating) 0 := by
      unfold Marks
      decide +kernel
    rw [← hfirst i hi, sentBit, sentBit]
    change (alternating ((k * 10 + i) / 1)).toNat.testBit (1 - 1 - (k * 10 + i) % 1) =
      (alternating ((0 + i) / 1)).toNat.testBit (1 - 1 - (0 + i) % 1)
    simp only [Nat.div_one, Nat.mod_one, alternating_add, Nat.zero_add]
  frame := by
    intro k
    have hfirst : ((List.range onesConfig.messageLen).map fun i =>
        sentBit onesConfig.ldM alternating (onesConfig.asmLenBits + i)) = ofBytes [0x55] := by
      decide +kernel
    rw [← hfirst]
    refine List.map_congr_left fun i _ => ?_
    rw [sentBit, sentBit]
    change (alternating ((2 + k * 10 + i) / 1)).toNat.testBit (1 - 1 - (2 + k * 10 + i) % 1) =
      (alternating ((2 + i) / 1)).toNat.testBit (1 - 1 - (2 + i) % 1)
    have hposition : 2 + k * 10 + i = k * 10 + (2 + i) := by omega
    simp only [Nat.div_one, Nat.mod_one, hposition, alternating_add]
  distinct := by
    intro rotation hpos hle
    obtain rfl : rotation = 1 := by omega
    unfold Marks
    decide +kernel

theorem link_delivers_bpsk :
    ∃ stream : Nat → ℚ, ∀ tags m,
      Transition.Reachable (Machine.step onesConfig stream tags) (fun _ _ => True) .start m →
      ∀ numInput numConsumed next, m.point = .loop numInput numConsumed →
        m.step onesConfig stream tags .proceed = some next → next.point = .idle →
        10 ≤ m.nitemsRead + numInput →
          ∃ messages, Arrived Empty onesConfig 1 (fun _ => [0x55]) next.log messages ∧
            0 < messages.length := by
  have hcaptured : Carrier.Captured onesConfig.order (⟨1 / 300, 1 / 500⟩ : Carrier ℚ)
      (Block.make onesConfig.order (1 / 4)).filter (20 * (1 / 250)) :=
    captured_quarter (by norm_num [abs_of_pos]) (by norm_num [abs_of_pos])
      (by norm_num [Carrier.half, onesConfig, twoBitConfig, Config.order])
  have hbehind : Carrier.Behind (⟨1 / 300, 1 / 500⟩ : Carrier ℚ) onesConfig.order 1
      ⟨1 / 2 + 1 / 300, 1 / 500⟩ :=
    ⟨⟨0, by norm_num [offsetPoints, onesConfig, twoBitConfig, Config.order]⟩, rfl⟩
  obtain ⟨-, -, -, -, stream, -, hdelivers⟩ := link_delivers Empty .flush
    (by norm_num : (0 : ℚ) < 1 / 4) (by norm_num) (bipolar_of_bytes (fun _ => 0xC0) rfl)
    (by decide +kernel) (by decide +kernel) (fun _ => storable_one _) (fun _ => by norm_num)
    (by decide) framed_alternating hbehind hcaptured
  refine ⟨stream, fun tags m hreachable numInput numConsumed next hpoint hstep hidle hshown => ?_⟩
  obtain ⟨-, hsent⟩ := hdelivers tags m hreachable
  refine hsent numInput numConsumed next hpoint hstep hidle 0 ?_
  have hsum := getLowerMul_add_mod 1 (m.nitemsRead + numInput)
  change 10 ≤ getLowerMul 1 (m.nitemsRead + numInput)
  omega

end Example

end GrCcsds.Link
