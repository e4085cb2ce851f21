import GrCcsds.ConvDecode.Unpuncture

/-! # The trellis of the decoder

The decoder of libfec keeps the last six bits with the newest one at the bottom.
With the polynomials, the start state and the final state that the block hands
over, its trellis runs through the coded bits of the encoder.
-/

namespace GrCcsds.ConvDecode

open Utils Foundation Foundation.Bits ConvEncode

namespace Trellis

/-- The parity of the seven bits of a register. -/
def parity (word : Nat) : Bool :=
  (List.range 7).foldl (fun parity i => parity ^^ word.testBit i) false

/-- The register takes in a bit at the bottom. -/
def register (state : Nat) (bit : Bool) : Nat := state <<< 1 ||| bit.toNat

/-- A negative polynomial inverts its output. -/
def output (poly : Int) (register : Nat) : Bool :=
  parity (register &&& poly.natAbs) ^^ decide (poly < 0)

/-- The outputs along a path and the state that it ends in. -/
def run (polys : List Int) : (state : Nat) → List Bool → List Bool × Nat
  | state, [] => ([], state)
  | state, bit :: rest =>
    let (outputs, final) := run polys (register state bit &&& 0x3F) rest
    (polys.map (fun poly => output poly (register state bit)) ++ outputs, final)

/-- A state holds the newest bits of the past. -/
structure Holds (state : Nat) (past : List Bool) : Prop where
  lt : state < 64
  bits : ∀ i < 6, state.testBit i = past.getD i false

theorem parity_eq {word : Nat} {tap : Nat → Bool} {past : List Bool} {stages : Nat}
    (hbits : ∀ i < stages, word.testBit i = (past.getD i false && tap i)) :
    (List.range stages).foldl (fun parity i => parity ^^ word.testBit i) false =
      ConvolutionalCode.parity tap past stages := by
  induction stages with
  | zero => rfl
  | succ stages ih =>
      rw [List.range_succ, List.foldl_append, ih fun i hi => hbits i (Nat.lt_succ_of_lt hi)]
      simp only [List.foldl_cons, List.foldl_nil]
      rw [hbits stages (Nat.lt_succ_self _), ConvolutionalCode.parity]

theorem Holds.register {state : Nat} {past : List Bool} (hholds : Holds state past) (bit : Bool)
    {i : Nat} (hi : i < 7) : (register state bit).testBit i = (bit :: past).getD i false := by
  unfold Trellis.register
  cases i with
  | zero => cases bit <;> simp
  | succ i =>
      have hbit : bit.toNat.testBit (i + 1) = false := by
        cases bit <;> simp [Nat.testBit_succ]
      rw [Nat.testBit_or, Nat.testBit_shiftLeft, hbit, List.getD_cons_succ,
        ← hholds.bits i (by omega)]
      simp

theorem Holds.next {state : Nat} {past : List Bool} (hholds : Holds state past) (bit : Bool) :
    Holds (Trellis.register state bit &&& 0x3F) (bit :: past) where
  lt := Nat.lt_of_le_of_lt Nat.and_le_right (by decide)
  bits := by
    intro i hi
    have hmask : ∀ i < 6, Nat.testBit 0x3F i = true := by decide
    rw [Nat.testBit_and, hmask i hi, Bool.and_true, hholds.register bit (by omega)]

/-- States that hold the same past are equal. -/
theorem Holds.unique {state other : Nat} {past : List Bool} (hholds : Holds state past)
    (hother : Holds other past) : state = other := by
  apply Nat.eq_of_testBit_eq
  intro i
  by_cases hi : i < 6
  · rw [hholds.bits i hi, hother.bits i hi]
  · have hword : ∀ word < 64, word.testBit i = false := by
      intro word hword
      exact Nat.testBit_lt_two_pow (Nat.lt_of_lt_of_le hword
        (Nat.pow_le_pow_right Nat.two_pos (Nat.le_of_not_lt hi)))
    rw [hword _ hholds.lt, hword _ hother.lt]

end Trellis

section Polynomials

theorem getLsbD_convertPolyLoop (input : BitVec 8) {m : Nat} (hm : m ≤ 8) {t : Nat} (ht : t < m) :
    (convertPolyLoop input m).getLsbD t = input.getLsbD (m - 1 - t) := by
  induction m generalizing t with
  | zero => exact absurd ht (Nat.not_lt_zero _)
  | succ m ih =>
      have hmask : ∀ t < 8, (0x01#8).getLsbD t = decide (t = 0) := by decide
      rw [convertPolyLoop, BitVec.getLsbD_or, BitVec.getLsbD_shiftLeft, BitVec.getLsbD_and,
        BitVec.getLsbD_ushiftRight, hmask t (by omega)]
      cases t with
      | zero => simp
      | succ t =>
          rw [Nat.add_sub_cancel, ih (Nat.le_of_succ_le hm) (by omega)]
          have hindex : m - (t + 1) = m - 1 - t := by omega
          have hbelow : t + 1 < 8 := by omega
          simp [hindex, hbelow]

theorem natAbs_convertPoly (input : BitVec 8) :
    (convertPoly input).natAbs = (convertPolyLoop input 7).toNat := by
  unfold convertPoly
  dsimp only
  split
  · exact (Int.natAbs_neg _).trans (Int.natAbs_natCast _)
  · exact Int.natAbs_natCast _

theorem testBit_natAbs_convertPoly (input : BitVec 8) {t : Nat} (ht : t < 7) :
    (convertPoly input).natAbs.testBit t = (generator input).tap t := by
  rw [natAbs_convertPoly, BitVec.testBit_toNat, getLsbD_convertPolyLoop input (by decide) ht]
  rfl

/-- A polynomial with a tap keeps its inversion in the sign. -/
theorem convertPoly_neg_iff {input : BitVec 8} (htaps : input &&& 0x7F#8 ≠ 0#8) :
    convertPoly input < 0 ↔ (generator input).inverted = true := by
  -- without a tap the polynomial would be zero, which has no sign
  have hpos : 0 < (convertPolyLoop input 7).toNat := by
    apply Nat.pos_of_ne_zero
    intro hzero
    apply htaps
    apply BitVec.eq_of_getLsbD_eq
    intro i hi
    rw [BitVec.getLsbD_and, BitVec.getLsbD_zero]
    by_cases hlast : i = 7
    · rw [hlast]
      simp
    · have hbit := getLsbD_convertPolyLoop input (m := 7) (by decide) (t := 6 - i) (by omega)
      have hloop : convertPolyLoop input 7 = 0#8 := BitVec.eq_of_toNat_eq hzero
      rw [hloop, BitVec.getLsbD_zero] at hbit
      have hindex : 7 - 1 - (6 - i) = i := by omega
      rw [← hindex, ← hbit, Bool.false_and]
  have hmask : (input &&& 0x80#8 != 0) = input.getLsbD 7 :=
    and_mask_ne_zero input (k := 7) (by decide)
  change _ ↔ input.getLsbD 7 = true
  unfold convertPoly
  dsimp only
  rw [hmask]
  split
  next hsign => exact ⟨fun _ => hsign, fun _ => by omega⟩
  next hsign => exact ⟨fun h => by omega, fun h => absurd h hsign⟩

namespace Trellis

/-- An output of the trellis is that of the generator of the encoder. -/
theorem Holds.output {state : Nat} {past : List Bool} (hholds : Holds state past)
    {genPoly : BitVec 8} (htaps : genPoly &&& 0x7F#8 ≠ 0#8) (bit : Bool) :
    Trellis.output (convertPoly genPoly) (Trellis.register state bit) =
      (generator genPoly).output 7 (bit :: past) := by
  -- bit `i` of the register is the input `i` steps before, as is tap `i` of the polynomial
  have hparity : parity (Trellis.register state bit &&& (convertPoly genPoly).natAbs) =
      ConvolutionalCode.parity (generator genPoly).tap (bit :: past) 7 := by
    apply parity_eq
    intro i hi
    rw [Nat.testBit_and, hholds.register bit hi, testBit_natAbs_convertPoly genPoly hi]
  have hsign : decide (convertPoly genPoly < 0) = (generator genPoly).inverted :=
    Bool.eq_iff_iff.mpr (decide_eq_true_iff.trans (convertPoly_neg_iff htaps))
  rw [Trellis.output, hparity, hsign]
  rfl

/-- The trellis runs through the coded bits of the encoder. -/
theorem Holds.run {state : Nat} {past : List Bool} (hholds : Holds state past)
    {genPolyC1 genPolyC2 : BitVec 8} (htapsC1 : genPolyC1 &&& 0x7F#8 ≠ 0#8)
    (htapsC2 : genPolyC2 &&& 0x7F#8 ≠ 0#8) (bits : List Bool) :
    (Trellis.run [convertPoly genPolyC1, convertPoly genPolyC2] state bits).1 =
        serial genPolyC1 genPolyC2 past bits ∧
      Holds (Trellis.run [convertPoly genPolyC1, convertPoly genPolyC2] state bits).2
        (bits.reverse ++ past) := by
  induction bits generalizing state past with
  | nil => exact ⟨rfl, hholds⟩
  | cons bit rest ih =>
      obtain ⟨houtputs, hfinal⟩ := ih (hholds.next bit)
      rw [List.reverse_cons, List.append_assoc]
      refine ⟨?_, hfinal⟩
      rw [Trellis.run]
      simp only [List.map_cons, List.map_nil, hholds.output htapsC1, hholds.output htapsC2,
        houtputs]
      rfl

end Trellis

end Polynomials

section States

theorem length_hexBytes (chars : List Char) : (hexBytes chars).length = chars.length / 2 := by
  induction chars using hexBytes.induct with
  | case1 first second rest ih =>
      rw [hexBytes, List.length_cons, ih, List.length_cons, List.length_cons]
      omega
  | case2 chars hshort =>
      match chars with
      | [] => simp [hexBytes]
      | [_] => simp [hexBytes]
      | first :: second :: rest => exact absurd rfl (hshort first second rest)

/-- The bits of a byte in the order of its word. -/
theorem testBit_toNat (byte : UInt8) (i : Nat) : byte.toNat.testBit i = byte.toBitVec.getLsbD i :=
  BitVec.testBit_toNat byte.toBitVec

theorem sixBits_eq : ∀ i < 6, Nat.testBit 0x3F i = true := by decide

/-- The last six bits of a stream that ends with a byte. -/
theorem holds_last (bytes : List UInt8) (last : UInt8) (past : List Bool) :
    Trellis.Holds (last &&& 0x3F).toNat ((ofBytes (bytes ++ [last])).reverse ++ past) where
  lt := Nat.lt_of_le_of_lt (UInt8.toNat_and last 0x3F ▸ Nat.and_le_right) (by decide)
  bits := by
    intro i hi
    have hlength : i < (low 8 last.toBitVec).reverse.length := by
      rw [List.length_reverse, length_low]
      omega
    rw [UInt8.toNat_and, Nat.testBit_and, testBit_toNat, ofBytes_append, List.reverse_append,
      List.append_assoc]
    change (_ && Nat.testBit 0x3F i) = _
    rw [sixBits_eq i hi, Bool.and_true, ofBytes_cons, ofBytes_nil, List.append_nil,
      List.getD_append _ _ _ _ hlength, List.getD_eq_getElem _ _ hlength, List.getElem_reverse,
      getElem_low]
    congr 1
    simp only [length_low]
    omega

/-- The first six bits of a byte. -/
theorem holds_first (first : UInt8) (rest : List UInt8) (past : List Bool) :
    Trellis.Holds (first >>> 2 &&& 0x3F).toNat
      (((ofBytes (first :: rest)).take 6).reverse ++ past) where
  lt := Nat.lt_of_le_of_lt (UInt8.toNat_and (first >>> 2) 0x3F ▸ Nat.and_le_right) (by decide)
  bits := by
    intro i hi
    have htake : (ofBytes (first :: rest)).take 6 = (low 8 first.toBitVec).take 6 := by
      rw [ofBytes_cons, List.take_append_of_le_length (by rw [length_low]; decide)]
    have hlength : i < ((low 8 first.toBitVec).take 6).reverse.length := by
      rw [List.length_reverse, List.length_take, length_low]
      exact hi
    have hshift : (first >>> 2).toNat.testBit i = first.toBitVec.getLsbD (2 + i) := by
      rw [UInt8.toNat_shiftRight, Nat.testBit_shiftRight]
      exact testBit_toNat first (2 + i)
    rw [UInt8.toNat_and, Nat.testBit_and, hshift, htake]
    change (_ && Nat.testBit 0x3F i) = _
    rw [sixBits_eq i hi, Bool.and_true, List.getD_append _ _ _ _ hlength,
      List.getD_eq_getElem _ _ hlength, List.getElem_reverse, List.getElem_take, getElem_low]
    congr 1
    simp only [List.length_take, length_low]
    omega

variable {asm : String}

/-- The bytes of an ASM have a first and a last one. -/
theorem hexstringToBinary_ne_nil (heven : asm.length % 2 = 0) (hpos : asm.length ≠ 0) :
    (hexstringToBinary asm).length = asm.length / 2 ∧ hexstringToBinary asm ≠ [] := by
  have hlength : (hexstringToBinary asm).length = asm.length / 2 := by
    rw [hexstringToBinary, if_neg (not_not_intro heven), length_hexBytes, String.length_toList]
  refine ⟨hlength, ?_⟩
  intro hnil
  rw [hnil, List.length_nil] at hlength
  omega

theorem holds_getStartState (heven : asm.length % 2 = 0) (hpos : asm.length ≠ 0)
    (past : List Bool) :
    Trellis.Holds (getStartState asm) ((ofBytes (hexstringToBinary asm)).reverse ++ past) := by
  obtain ⟨hlength, hne⟩ := hexstringToBinary_ne_nil heven hpos
  have hindex : divideCeil asm.length 2 - 1 = (hexstringToBinary asm).length - 1 := by
    rw [hlength, divideCeil, if_pos heven]
  have hlast := holds_last (hexstringToBinary asm).dropLast
    ((hexstringToBinary asm).getLast hne) past
  rw [List.dropLast_append_getLast] at hlast
  rw [getStartState, hindex]
  rwa [List.getD_eq_getElem _ _ (Nat.sub_lt (List.length_pos_iff.mpr hne) Nat.one_pos),
    ← List.getLast_eq_getElem hne]

theorem holds_getTermState (heven : asm.length % 2 = 0) (hpos : asm.length ≠ 0)
    (past : List Bool) :
    Trellis.Holds (getTermState asm)
      (((ofBytes (hexstringToBinary asm)).take 6).reverse ++ past) := by
  obtain ⟨-, hne⟩ := hexstringToBinary_ne_nil heven hpos
  obtain ⟨first, rest, hbytes⟩ := List.exists_cons_of_ne_nil hne
  rw [getTermState, hbytes]
  exact holds_first first rest past

/-- Every state of the encoder is clean: the initial one, and whatever `encode` leaves. -/
theorem clean_encoder (cfg : ConvEncode.Config) (state : BitVec 16) (inputByte : UInt8) :
    Encoder.initial.state &&& 0x7F00#16 = Encoder.initial.state ∧
      (encode cfg state inputByte).2 &&& 0x7F00#16 = (encode cfg state inputByte).2 := by
  refine ⟨by decide, ?_⟩
  rw [encode, BitVec.and_assoc, BitVec.and_self]

/-- The registers of a state word that `encode` has cleaned up. -/
theorem registers_of_clean {state : BitVec 16} (hclean : state &&& 0x7F00#16 = state) :
    Registers state ((List.range 7).map fun i => state.getLsbD (8 + i)) [] where
  length := Nat.zero_le _
  past := by
    intro i hi
    rw [List.getD_eq_getElem _ _ (by simpa using hi)]
    simp
  pending := by
    intro i hi
    rw [← hclean, BitVec.getLsbD_and, currentBits_eq i hi, Bool.and_false]
    rfl

/-- The bits behind an ASM until the final state of the decoder is reached. -/
def pathBits (asm : String) (payload : List UInt8) : List Bool :=
  ofBytes payload ++ (ofBytes (hexstringToBinary asm)).take 6

/-- The coded bits that the encoder makes of them when the payload stands between two ASMs. -/
def pathCoded (cfg : ConvEncode.Config) (state : BitVec 16) (asm : String) (payload : List UInt8) :
    List Bool :=
  let marker := hexstringToBinary asm
  ((encodeBits cfg state (marker ++ payload ++ marker)).drop (16 * marker.length)).take
    (2 * (pathBits asm payload).length)

/-- The coded bits on the path are those of the generators after the ASM. -/
theorem pathCoded_eq {genPolyC1 genPolyC2 : BitVec 8} {state : BitVec 16} {past : List Bool}
    (hregisters : Registers state past []) (payload : List UInt8) :
    pathCoded (.make genPolyC1 genPolyC2 .none) state asm payload =
      serial genPolyC1 genPolyC2 ((ofBytes (hexstringToBinary asm)).reverse ++ past)
        (pathBits asm payload) := by
  unfold pathCoded pathBits
  dsimp only
  generalize hexstringToBinary asm = marker
  have hstream : ofBytes (marker ++ payload ++ marker) =
      ofBytes marker ++ (ofBytes payload ++ (ofBytes marker).take 6 ++
        (ofBytes marker).drop 6) := by
    rw [ofBytes_append, ofBytes_append, List.append_assoc, List.append_assoc,
      List.take_append_drop]
  have hlength : 16 * marker.length =
      (serial genPolyC1 genPolyC2 past (ofBytes marker)).length := by
    rw [length_serial, length_ofBytes, ← Nat.mul_assoc]
  rw [encodeBits_eq _ _ _ hregisters, hstream, serial_append, serial_append, hlength,
    List.drop_left, List.take_left' (length_serial genPolyC1 genPolyC2 _ _)]

/-- The trellis of the decoder runs through the coded bits of a payload between two ASMs. -/
theorem trellis_follows_encoder (genPolyC1 genPolyC2 : BitVec 8)
    (htapsC1 : genPolyC1 &&& 0x7F#8 ≠ 0#8) (htapsC2 : genPolyC2 &&& 0x7F#8 ≠ 0#8)
    (heven : asm.length % 2 = 0) (hpos : asm.length ≠ 0) (payload : List UInt8)
    (state : BitVec 16) (hclean : state &&& 0x7F00#16 = state) :
    Trellis.run [convertPoly genPolyC1, convertPoly genPolyC2] (getStartState asm)
        (pathBits asm payload) =
      (pathCoded (.make genPolyC1 genPolyC2 .none) state asm payload, getTermState asm) := by
  have hregisters := registers_of_clean hclean
  generalize (List.range 7).map (fun i => state.getLsbD (8 + i)) = past at hregisters
  have hstart := holds_getStartState heven hpos past
  obtain ⟨houtputs, hfinal⟩ := hstart.run htapsC1 htapsC2 (pathBits asm payload)
  apply Prod.ext
  · rw [houtputs, pathCoded_eq hregisters]
  -- both states hold the last six bits of the path
  · apply hfinal.unique
    have hterm := holds_getTermState heven hpos
      ((ofBytes payload).reverse ++ ((ofBytes (hexstringToBinary asm)).reverse ++ past))
    rw [← List.append_assoc, ← List.reverse_append] at hterm
    exact hterm

/-- The marker and the polynomials of the CCSDS standard, the second one inverted. -/
theorem trellis_follows_encoder_standard :
    (Trellis.run [convertPoly 0x79#8, convertPoly 0xDB#8] (getStartState "1ACFFC1D")
      (pathBits "1ACFFC1D" [0x2A])).2 = 6 := by
  have heven : "1ACFFC1D".length % 2 = 0 := by decide +kernel
  have hpos : "1ACFFC1D".length ≠ 0 := by decide +kernel
  have hfinal := congrArg Prod.snd (trellis_follows_encoder 0x79#8 0xDB#8 (by decide) (by decide)
    heven hpos [0x2A] 0#16 (by decide))
  refine hfinal.trans ?_
  decide +kernel

end States

end GrCcsds.ConvDecode
