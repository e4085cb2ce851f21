import GrCcsds.ConvEncode.Block
import GrCcsds.Foundation.Bits
import GrCcsds.Foundation.ConvolutionalCode

/-! # The byte encoder against the bit-serial code

The state word holds the last input bits. Encoding a byte appends the coded
bits of the serial encoder, and puncturing keeps those that the pattern marks
at the current position of the stream.
-/

namespace GrCcsds.ConvEncode

open Foundation Foundation.Bits

/-- The generator described by a compact polynomial. The bit below the most
significant one belongs to the newest input bit. -/
def generator (genPoly : BitVec 8) : ConvolutionalCode.Generator where
  tap := fun t => genPoly.getLsbD (6 - t)
  inverted := genPoly.getLsbD 7

/-- The bits that the serial encoder with seven register stages produces after
the given input bits. -/
def serial (genPolyC1 genPolyC2 : BitVec 8) (past bits : List Bool) : List Bool :=
  ConvolutionalCode.encode [generator genPolyC1, generator genPolyC2] 7 past bits

theorem serial_append (genPolyC1 genPolyC2 : BitVec 8) (past first second : List Bool) :
    serial genPolyC1 genPolyC2 past (first ++ second) =
      serial genPolyC1 genPolyC2 past first ++
        serial genPolyC1 genPolyC2 (first.reverse ++ past) second :=
  ConvolutionalCode.encode_append past first second

@[simp] theorem length_serial (genPolyC1 genPolyC2 : BitVec 8) (past bits : List Bool) :
    (serial genPolyC1 genPolyC2 past bits).length = 2 * bits.length :=
  ConvolutionalCode.length_encode past bits

/-- The coded stream of a sequence of input bits. -/
def coded (genPolyC1 genPolyC2 : BitVec 8) (puncturing : Punct) (bits : List Bool) :
    List Bool :=
  ConvolutionalCode.puncture (getPattern puncturing) 0 (serial genPolyC1 genPolyC2 [] bits)

/-- The registers of the state word: the current bit and those after it up to
bit 7, the bits before it above. -/
structure Registers (state : BitVec 16) (past pending : List Bool) : Prop where
  length : pending.length ≤ 8
  past : ∀ i < 7, state.getLsbD (8 + i) = past.getD i false
  pending : ∀ i < 8, state.getLsbD (7 - i) = pending.getD i false

/-- The encoder after a sequence of input bits. -/
structure Encoder.Follows (puncturing : Punct) (bits : List Bool) (e : Encoder) : Prop where
  registers : Registers e.state bits.reverse []
  phase : e.punctCount = 2 * bits.length % getPatternLen puncturing

@[simp] theorem length_getPattern (puncturing : Punct) :
    (getPattern puncturing).length = getPatternLen puncturing := by
  cases puncturing <;> rfl

theorem follows_initial (puncturing : Punct) :
    Encoder.initial.Follows puncturing [] where
  registers := by constructor <;> simp [Encoder.initial]
  phase := by simp [Encoder.initial]

theorem polyMask_eq : ∀ t < 7, 0x40#8 >>> t = 1#8 <<< (6 - t) := by decide

theorem polyBits_eq : ∀ k < 7, (0x7F#8).getLsbD k = true := by decide

/-- The loop through the shift registers computes the parity of the taps. -/
theorem outBit_eq_parity {state : BitVec 16} {bit : Bool} {past pending : List Bool}
    (hregisters : Registers state past (bit :: pending)) (genPoly : BitVec 8) {stages : Nat}
    (hstages : stages ≤ 7) :
    outBit (genPoly &&& 0x7F#8) state stages =
      ConvolutionalCode.parity (generator genPoly).tap (bit :: past) stages := by
  induction stages with
  | zero => rfl
  | succ t ih =>
      have hstate : (state &&& (bitMask <<< t) != 0#16) = (bit :: past).getD t false := by
        rw [bitMask, ← BitVec.shiftLeft_add, and_mask_ne_zero _ (by omega)]
        cases t with
        | zero => exact hregisters.pending 0 (by decide)
        | succ t =>
            rw [List.getD_cons_succ, ← hregisters.past t (by omega)]
            congr 1
            omega
      have hpoly : ((0x40#8 >>> t) &&& (genPoly &&& 0x7F#8) != 0#8) = genPoly.getLsbD (6 - t) := by
        rw [polyMask_eq t hstages, BitVec.and_comm, and_mask_ne_zero _ (by omega),
          BitVec.getLsbD_and, polyBits_eq _ (by omega), Bool.and_true]
      rw [outBit, ConvolutionalCode.parity, ih (Nat.le_of_succ_le hstages)]
      change (if (state &&& (bitMask <<< t) != 0#16) = true then
        _ ^^ ((0x40#8 >>> t) &&& (genPoly &&& 0x7F#8) != 0#8) else _) = _
      rw [hstate, hpoly]
      cases (bit :: past).getD t false <;> simp [generator]

/-- Appending the two output bits of one iteration. -/
theorem low_append_two (n : Nat) (word : BitVec 16) (bit1 bit2 : Bool) (hn : n + 2 ≤ 16) :
    low (n + 2) ((word <<< 2 ||| (BitVec.ofBool bit1).setWidth 16 <<< 1) |||
        (BitVec.ofBool bit2).setWidth 16) = low n word ++ [bit1, bit2] := by
  have hword : (word <<< 2 ||| (BitVec.ofBool bit1).setWidth 16 <<< 1) |||
        (BitVec.ofBool bit2).setWidth 16 =
      (word <<< 1 ||| (BitVec.ofBool bit1).setWidth 16) <<< 1 |||
        (BitVec.ofBool bit2).setWidth 16 := by
    rw [BitVec.shiftLeft_or_distrib, ← BitVec.shiftLeft_add]
  rw [hword, low_shiftLeft_one _ _ _ (by omega), low_shiftLeft_one _ _ _ (by omega),
    List.append_assoc]
  rfl

variable (genPolyC1 genPolyC2 : BitVec 8) (puncturing : Punct)

theorem invert_eq (genPoly : BitVec 8) : (genPoly &&& 0x80#8 == 0x80#8) = genPoly.getLsbD 7 := by
  have hmask : 0x80#8 = BitVec.twoPow 8 7 := by decide
  rw [hmask, BitVec.and_twoPow]
  cases genPoly.getLsbD 7 <;> decide

@[simp] theorem make_invertC1 :
    (Config.make genPolyC1 genPolyC2 puncturing).invertC1 = genPolyC1.getLsbD 7 :=
  invert_eq genPolyC1

@[simp] theorem make_invertC2 :
    (Config.make genPolyC1 genPolyC2 puncturing).invertC2 = genPolyC2.getLsbD 7 :=
  invert_eq genPolyC2

theorem stateBits_eq : ∀ k < 15, (0x7FFF#16).getLsbD k = true := by decide

/-- Shifting the state word makes the current bit the newest of the past. -/
theorem Registers.shift {state : BitVec 16} {bit : Bool} {past pending : List Bool}
    (hregisters : Registers state past (bit :: pending)) :
    Registers ((state <<< 1) &&& 0x7FFF#16) (bit :: past) pending where
  length := Nat.le_of_succ_le hregisters.length
  past := by
    intro i hi
    rw [BitVec.getLsbD_and, stateBits_eq _ (by omega), BitVec.getLsbD_shiftLeft]
    cases i with
    | zero => simpa using hregisters.pending 0 (by decide)
    | succ i =>
        have hbit := hregisters.past i (by omega)
        rw [List.getD_cons_succ, ← hbit]
        simp [show 8 + (i + 1) < 16 by omega]
  pending := by
    intro i hi
    rw [BitVec.getLsbD_and, stateBits_eq _ (by omega), BitVec.getLsbD_shiftLeft]
    rcases Nat.lt_or_ge i 7 with hlt | hge
    · have hbit := hregisters.pending (i + 1) (by omega)
      rw [List.getD_cons_succ] at hbit
      rw [← hbit]
      simp [show ¬ 7 - i < 1 by omega, show 7 - i < 16 by omega]
      congr 1
      omega
    · have hlast : i = 7 := by omega
      have hnone : pending.length ≤ 7 := Nat.le_of_succ_le_succ hregisters.length
      subst hlast
      simp [List.getElem?_eq_none hnone]

theorem invert_bit_eq (inverted bit : Bool) :
    (if inverted then bit ^^ true else bit) = (bit ^^ inverted) := by
  cases inverted <;> simp

/-- One iteration of the loop outputs the coded bits of the current input bit
and moves on to the next one. -/
theorem encodeBit_spec {state : BitVec 16} (outputBits : BitVec 16) {bit : Bool}
    {past pending : List Bool} (hregisters : Registers state past (bit :: pending)) {n : Nat}
    (hn : n + 2 ≤ 16) :
    Registers (encodeBit (.make genPolyC1 genPolyC2 puncturing) state outputBits).1
        (bit :: past) pending ∧
      low (n + 2) (encodeBit (.make genPolyC1 genPolyC2 puncturing) state outputBits).2 =
        low n outputBits ++ serial genPolyC1 genPolyC2 past [bit] := by
  refine ⟨hregisters.shift, ?_⟩
  have houtC1 := outBit_eq_parity hregisters genPolyC1 (Nat.le_refl 7)
  have houtC2 := outBit_eq_parity hregisters genPolyC2 (Nat.le_refl 7)
  change outBit (Config.make genPolyC1 genPolyC2 puncturing).polyC1 state 7 = _ at houtC1
  change outBit (Config.make genPolyC1 genPolyC2 puncturing).polyC2 state 7 = _ at houtC2
  simp only [encodeBit, make_invertC1, make_invertC2, houtC1, houtC2, invert_bit_eq]
  exact low_append_two _ _ _ _ hn

/-- The loop outputs the coded bits of all pending input bits. -/
theorem encodeLoop_spec {state : BitVec 16} (outputBits : BitVec 16) {past pending : List Bool}
    (hregisters : Registers state past pending) {n : Nat} (hn : n + 2 * pending.length ≤ 16) :
    Registers (encodeLoop (.make genPolyC1 genPolyC2 puncturing) pending.length
        (state, outputBits)).1 (pending.reverse ++ past) [] ∧
      low (n + 2 * pending.length) (encodeLoop (.make genPolyC1 genPolyC2 puncturing)
          pending.length (state, outputBits)).2 =
        low n outputBits ++ serial genPolyC1 genPolyC2 past pending := by
  induction pending generalizing state outputBits past n with
  | nil =>
      refine ⟨hregisters, ?_⟩
      simp [encodeLoop, serial, ConvolutionalCode.encode]
  | cons bit rest ih =>
      rw [List.length_cons, Nat.mul_succ] at hn
      obtain ⟨hstep, hbits⟩ := encodeBit_spec genPolyC1 genPolyC2 puncturing
        outputBits hregisters (n := n) (by omega)
      obtain ⟨hrest, hlow⟩ := ih _ hstep (n := n + 2) (by omega)
      constructor
      · rw [List.reverse_cons, List.append_assoc]
        exact hrest
      · have hlength : n + 2 * (bit :: rest).length = n + 2 + 2 * rest.length := by
          rw [List.length_cons]
          omega
        rw [hlength]
        refine hlow.trans ?_
        refine (congrArg (· ++ _) hbits).trans ?_
        rw [List.append_assoc]
        rfl

/-- The input byte takes the free places below the past bits. -/
theorem Registers.load {state : BitVec 16} {past : List Bool} (hregisters : Registers state past [])
    (inputByte : UInt8) :
    Registers (state ||| inputByte.toBitVec.setWidth 16) past (low 8 inputByte.toBitVec) where
  length := Nat.le_of_eq (length_low _ _)
  past := by
    intro i hi
    rw [BitVec.getLsbD_or, hregisters.past i hi]
    simp [BitVec.getLsbD_of_ge]
  pending := by
    intro i hi
    have hclear := hregisters.pending i hi
    rw [BitVec.getLsbD_or, hclear]
    have hbit : (low 8 inputByte.toBitVec).getD i false = inputByte.toBitVec.getLsbD (7 - i) := by
      rw [List.getD_eq_getElem?_getD, List.getElem?_eq_getElem (by simpa using hi), getElem_low]
      rfl
    rw [hbit]
    simp [show 7 - i < 16 by omega]

theorem pastBits_eq : ∀ k < 7, (0x7F00#16).getLsbD (8 + k) = true := by decide

theorem currentBits_eq : ∀ k < 8, (0x7F00#16).getLsbD (7 - k) = false := by decide

/-- The final cleanup keeps the past bits. -/
theorem Registers.cleanup {state : BitVec 16} {past : List Bool}
    (hregisters : Registers state past []) : Registers (state &&& 0x7F00#16) past [] where
  length := Nat.zero_le _
  past := by
    intro i hi
    rw [BitVec.getLsbD_and, pastBits_eq i hi, Bool.and_true]
    exact hregisters.past i hi
  pending := by
    intro i hi
    rw [BitVec.getLsbD_and, currentBits_eq i hi, Bool.and_false]
    rfl

/-- Encoding a byte outputs its sixteen coded bits. -/
theorem encode_spec {state : BitVec 16} {past : List Bool} (hregisters : Registers state past [])
    (inputByte : UInt8) :
    low 16 (encode (.make genPolyC1 genPolyC2 puncturing) state inputByte).1 =
        serial genPolyC1 genPolyC2 past (low 8 inputByte.toBitVec) ∧
      Registers (encode (.make genPolyC1 genPolyC2 puncturing) state inputByte).2
        ((low 8 inputByte.toBitVec).reverse ++ past) [] := by
  obtain ⟨hfinal, hbits⟩ := encodeLoop_spec genPolyC1 genPolyC2 puncturing 0
    (hregisters.load inputByte) (n := 0) (by simp)
  rw [length_low] at hfinal hbits
  exact ⟨hbits, hfinal.cleanup⟩

theorem inputMask_eq : ∀ i < 16, 0x8000#16 >>> i = 1#16 <<< (15 - i) := by decide

/-- One iteration of the puncturing appends the bit or drops it. -/
theorem punctureBit_spec (cfg : Config) (inputBits : BitVec 16) {i : Nat} (hi : i < 16)
    (p : Punctured) (hnum : p.numOutBits < 16) :
    low (punctureBit cfg inputBits i p).numOutBits (punctureBit cfg inputBits i p).outputBits =
        low p.numOutBits p.outputBits ++
          (if (getPattern cfg.punctType).getD p.punctCount false then
            [inputBits.getLsbD (15 - i)] else []) ∧
      (punctureBit cfg inputBits i p).numOutBits ≤ p.numOutBits + 1 := by
  have hmask : (inputBits &&& (0x8000#16 >>> i) != 0) = inputBits.getLsbD (15 - i) := by
    rw [inputMask_eq i hi]
    exact and_mask_ne_zero _ (by omega)
  unfold punctureBit
  cases (getPattern cfg.punctType).getD p.punctCount false with
  | true =>
      refine ⟨?_, Nat.le_refl _⟩
      simp only [if_true]
      rw [hmask, ← low_shiftLeft_one _ _ _ hnum]
      cases inputBits.getLsbD (15 - i) <;> simp
  | false => simp

/-- The loop of the puncturing keeps the marked bits. -/
theorem puncture_spec (cfg : Config) (inputBits : BitVec 16) (phase : Nat) {count : Nat}
    (hcount : count ≤ 16) :
    low (puncture cfg inputBits (phase % getPatternLen cfg.punctType) count).numOutBits
        (puncture cfg inputBits (phase % getPatternLen cfg.punctType) count).outputBits =
      ConvolutionalCode.puncture (getPattern cfg.punctType) phase ((low 16 inputBits).take count) ∧
    (puncture cfg inputBits (phase % getPatternLen cfg.punctType) count).numOutBits ≤ count ∧
    (puncture cfg inputBits (phase % getPatternLen cfg.punctType) count).punctCount =
      (phase + count) % getPatternLen cfg.punctType := by
  induction count with
  | zero => exact ⟨rfl, Nat.le_refl _, rfl⟩
  | succ i ih =>
      obtain ⟨hbits, hnum, hphase⟩ := ih (Nat.le_of_succ_le hcount)
      obtain ⟨hstep, hstepNum⟩ := punctureBit_spec cfg inputBits hcount _
        (Nat.lt_of_le_of_lt hnum hcount)
      have htake : (low 16 inputBits).take (i + 1) =
          (low 16 inputBits).take i ++ [inputBits.getLsbD (15 - i)] := by
        rw [List.take_succ_eq_append_getElem (by rw [length_low]; exact hcount), getElem_low]
      have hlength : ((low 16 inputBits).take i).length = i := by
        rw [List.length_take, length_low]
        omega
      refine ⟨?_, Nat.le_trans hstepNum (Nat.succ_le_succ hnum), ?_⟩
      · rw [htake, ConvolutionalCode.puncture_append, hlength, ← hbits]
        refine hstep.trans ?_
        rw [hphase]
        simp [ConvolutionalCode.puncture]
      · have hnext : (puncture cfg inputBits (phase % getPatternLen cfg.punctType)
            (i + 1)).punctCount = ((puncture cfg inputBits
              (phase % getPatternLen cfg.punctType) i).punctCount + 1) %
                getPatternLen cfg.punctType := by
          rw [puncture, punctureBit]
          split <;> rfl
        rw [hnext, hphase, Nat.mod_add_mod]
        rfl

/-- Every pattern keeps at least eight of sixteen bits, at every phase. -/
theorem eight_le_length_puncture (phase : Nat) {bits : List Bool} (hlength : bits.length = 16) :
    8 ≤ (ConvolutionalCode.puncture (getPattern puncturing) phase bits).length := by
  rw [← ConvolutionalCode.puncture_mod, ConvolutionalCode.length_puncture_congr _
    (hlength.trans (List.length_replicate (n := 16) (a := false)).symm), length_getPattern]
  have hall : ∀ puncturing, ∀ phase < getPatternLen puncturing, 8 ≤
      (ConvolutionalCode.puncture (getPattern puncturing) phase
        (List.replicate 16 false)).length := by
    intro puncturing
    cases puncturing <;> decide
  apply hall
  apply Nat.mod_lt
  cases puncturing <;> decide

theorem encodePunct_of_eq_none {cfg : Config} (hnone : cfg.punctType = .none) (e : Encoder)
    (inputByte : UInt8) :
    encodePunct cfg e inputByte =
      ((encode cfg e.state inputByte).1, 16,
        { e with state := (encode cfg e.state inputByte).2 }) := by
  simp only [encodePunct, hnone]

theorem encodePunct_of_ne_none {cfg : Config} (hnone : cfg.punctType ≠ .none) (e : Encoder)
    (inputByte : UInt8) :
    encodePunct cfg e inputByte =
      let p := puncture cfg (encode cfg e.state inputByte).1 e.punctCount 16
      (p.outputBits, p.numOutBits,
        { state := (encode cfg e.state inputByte).2, punctCount := p.punctCount }) := by
  rw [encodePunct]
  split
  next heq => exact absurd heq hnone
  next => rfl

/-- Encoding and puncturing a byte yields eight to sixteen bits, which are the
next ones of the punctured stream. -/
theorem encodePunct_spec {bits : List Bool} {e : Encoder} (hfollows : e.Follows puncturing bits)
    (inputByte : UInt8) :
    ∃ word num next,
      encodePunct (.make genPolyC1 genPolyC2 puncturing) e inputByte = (word, num, next) ∧
      low num word = ConvolutionalCode.puncture (getPattern puncturing) (2 * bits.length)
        (serial genPolyC1 genPolyC2 bits.reverse (low 8 inputByte.toBitVec)) ∧
      8 ≤ num ∧ num ≤ 16 ∧ next.Follows puncturing (bits ++ low 8 inputByte.toBitVec) := by
  obtain ⟨hencoded, hregisters⟩ := encode_spec genPolyC1 genPolyC2 puncturing
    hfollows.registers inputByte
  rw [← List.append_nil (low 8 _).reverse, List.append_assoc] at hregisters
  have hserial : (serial genPolyC1 genPolyC2 bits.reverse (low 8 inputByte.toBitVec)).length =
      16 := by
    rw [serial, ConvolutionalCode.length_encode, length_low]
    rfl
  have hlength : 2 * (bits ++ low 8 inputByte.toBitVec).length = 2 * bits.length + 16 := by
    rw [List.length_append, length_low, Nat.mul_add]
  by_cases hnone : puncturing = .none
  · subst hnone
    refine ⟨_, _, _, encodePunct_of_eq_none rfl e inputByte, ?_, by decide, Nat.le_refl _, ?_, ?_⟩
    · exact hencoded.trans (ConvolutionalCode.puncture_singleton_true _ _).symm
    · rw [List.reverse_append]
      exact hregisters
    · change e.punctCount = _
      rw [hfollows.phase, getPatternLen, Nat.mod_one, Nat.mod_one]
  · obtain ⟨hbits, hnum, hphase⟩ := puncture_spec (.make genPolyC1 genPolyC2 puncturing)
      (encode (.make genPolyC1 genPolyC2 puncturing) e.state inputByte).1 (2 * bits.length)
      (Nat.le_refl 16)
    rw [List.take_of_length_le (Nat.le_of_eq (length_low _ _)), hencoded] at hbits
    have hstart : e.punctCount = 2 * bits.length %
        getPatternLen (Config.make genPolyC1 genPolyC2 puncturing).punctType := hfollows.phase
    rw [← hstart] at hbits hnum hphase
    refine ⟨_, _, _, encodePunct_of_ne_none hnone e inputByte, hbits, ?_, hnum, ?_, ?_⟩
    · have hcount := congrArg List.length hbits
      rw [length_low] at hcount
      rw [hcount]
      exact eight_le_length_puncture puncturing _ hserial
    · rw [List.reverse_append]
      exact hregisters
    · rw [hlength]
      exact hphase

end GrCcsds.ConvEncode
