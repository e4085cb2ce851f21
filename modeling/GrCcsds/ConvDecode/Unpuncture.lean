import GrCcsds.ConvDecode.Block
import GrCcsds.ConvEncode.Encoder
import Mathlib.Data.List.GetD

/-! # Unpuncturing undoes puncturing

The decoder walks the pattern as the encoder does: it puts every kept bit back
to its position and reads as many soft bits as it asks for. A pattern whose
length divides sixteen starts again with every input byte of the encoder.
-/

namespace GrCcsds.ConvDecode

open Foundation Foundation.Bits ConvEncode Ambiguity Softbits

/-- The bits that `puncture` keeps of successive words. -/
def punctureWords (cfg : Config) : (punctCount : Nat) → List (BitVec 16) → List Bool
  | _, [] => []
  | punctCount, word :: rest =>
    let p := puncture cfg word punctCount 16
    low p.numOutBits p.outputBits ++ punctureWords cfg p.punctCount rest

/-- The bits that `encode` produces for successive bytes. -/
def encodeBits (cfg : Config) : BitVec 16 → List UInt8 → List Bool
  | _, [] => []
  | state, byte :: rest =>
    low 16 (encode cfg state byte).1 ++ encodeBits cfg (encode cfg state byte).2 rest

/-- The bits that `encode_punct` produces for successive bytes. -/
def encodePunctBits (cfg : Config) : Encoder → List UInt8 → List Bool
  | _, [] => []
  | e, byte :: rest =>
    let (word, num, next) := encodePunct cfg e byte
    low num word ++ encodePunctBits cfg next rest

theorem punctureWords_eq (cfg : Config) (words : List (BitVec 16)) (phase : Nat) :
    punctureWords cfg (phase % getPatternLen cfg.punctType) words =
      ConvolutionalCode.puncture (getPattern cfg.punctType) phase (words.flatMap (low 16)) := by
  induction words generalizing phase with
  | nil => rfl
  | cons word rest ih =>
      obtain ⟨hbits, -, hphase⟩ := puncture_spec cfg word phase (Nat.le_refl 16)
      rw [List.take_of_length_le (Nat.le_of_eq (length_low 16 word))] at hbits
      rw [punctureWords, List.flatMap_cons, ConvolutionalCode.puncture_append, length_low, ← hbits,
        hphase, ih]

theorem encodeBits_eq (genPolyC1 genPolyC2 : BitVec 8) (puncturing : Punct) {state : BitVec 16}
    {past : List Bool} (hregisters : Registers state past []) (bytes : List UInt8) :
    encodeBits (.make genPolyC1 genPolyC2 puncturing) state bytes =
      serial genPolyC1 genPolyC2 past (ofBytes bytes) := by
  induction bytes generalizing state past with
  | nil => rfl
  | cons byte rest ih =>
      obtain ⟨hbits, hnext⟩ := encode_spec genPolyC1 genPolyC2 puncturing hregisters byte
      rw [encodeBits, hbits, ih hnext, ofBytes_cons, serial_append]

theorem encodePunctBits_eq (genPolyC1 genPolyC2 : BitVec 8) {puncturing : Punct} {e : Encoder}
    {bits : List Bool} (hfollows : e.Follows puncturing bits) (bytes : List UInt8) :
    encodePunctBits (.make genPolyC1 genPolyC2 puncturing) e bytes =
      ConvolutionalCode.puncture (getPattern puncturing) (2 * bits.length)
        (serial genPolyC1 genPolyC2 bits.reverse (ofBytes bytes)) := by
  induction bytes generalizing e bits with
  | nil => rfl
  | cons byte rest ih =>
      obtain ⟨word, num, next, hencode, hbits, -, -, hnext⟩ :=
        encodePunct_spec genPolyC1 genPolyC2 puncturing hfollows byte
      have hserial : serial genPolyC1 genPolyC2 bits.reverse (ofBytes (byte :: rest)) =
          serial genPolyC1 genPolyC2 bits.reverse (low 8 byte.toBitVec) ++
            serial genPolyC1 genPolyC2 (bits ++ low 8 byte.toBitVec).reverse (ofBytes rest) := by
        rw [ofBytes_cons, List.reverse_append, serial_append]
      have hlength : (serial genPolyC1 genPolyC2 bits.reverse (low 8 byte.toBitVec)).length =
          16 := by
        rw [length_serial, length_low]
      rw [encodePunctBits, hencode]
      dsimp only
      rw [hbits, ih hnext, hserial, ConvolutionalCode.puncture_append, hlength, List.length_append,
        length_low, Nat.mul_add]

section Restore

variable {R : Type} [Arithmetic R]

/-- The counters of the two loops of the decoder agree. -/
theorem numInputsLoop_eq (exp : R → R) (punctType : Punct)
    (input : List R) (m : Nat) :
    numInputsLoop punctType m =
      ((unpunctureLoop exp punctType input m).inCount,
        (unpunctureLoop exp punctType input m).punctCount) := by
  induction m with
  | zero => rfl
  | succ m ih =>
      rw [numInputsLoop, ih, unpunctureLoop]
      rfl

/-- The output of the decoder for a position of the coded bits. -/
def restored (exp : R → R) (soft : Bool → R) (puncturing : Punct) (coded : List Bool) (i : Nat) :
    UInt8 :=
  if (getPattern puncturing).getD (i % getPatternLen puncturing) false then
    mapToUInt8 exp (soft (coded.getD i false))
  else mapToUInt8 exp 0

/-- Unpuncturing puts the kept bits back to their positions and reads what it asks for. -/
structure Restores (exp : R → R) (soft : Bool → R) (puncturing : Punct) (coded kept : List Bool)
    (numOut : Nat) : Prop where
  out : (unpunctureAndConvert exp puncturing (kept.map soft) numOut).1 =
    (List.range numOut).map (restored exp soft puncturing coded)
  numRead : (unpunctureAndConvert exp puncturing (kept.map soft) numOut).2 =
    getNumInputsReq puncturing numOut
  available : getNumInputsReq puncturing numOut ≤ kept.length

/-- The loop has put the kept bits before a position back. -/
theorem unpunctureLoop_spec (exp : R → R) (soft : Bool → R) (puncturing : Punct)
    (coded : List Bool) {m : Nat} (hm : m ≤ coded.length) :
    (unpunctureLoop exp puncturing
        ((ConvolutionalCode.puncture (getPattern puncturing) 0 coded).map soft) m).out =
      (List.range m).map (restored exp soft puncturing coded) ∧
    (unpunctureLoop exp puncturing
        ((ConvolutionalCode.puncture (getPattern puncturing) 0 coded).map soft) m).punctCount =
      m % getPatternLen puncturing ∧
    (unpunctureLoop exp puncturing
        ((ConvolutionalCode.puncture (getPattern puncturing) 0 coded).map soft) m).inCount =
      (ConvolutionalCode.puncture (getPattern puncturing) 0 (coded.take m)).length := by
  induction m with
  | zero => exact ⟨rfl, (Nat.zero_mod _).symm, rfl⟩
  | succ m ih =>
      obtain ⟨hout, hphase, hcount⟩ := ih (Nat.le_of_succ_le hm)
      have htake : ConvolutionalCode.puncture (getPattern puncturing) 0 (coded.take (m + 1)) = _ :=
        ConvolutionalCode.puncture_take_succ 0 hm
      rw [length_getPattern, Nat.zero_add] at htake
      rw [unpunctureLoop, unpunctureStep]
      refine ⟨?_, ?_, ?_⟩
      · dsimp only
        rw [hout, hphase, hcount, List.range_succ, List.map_append, List.map_singleton, restored]
        congr 2
        split
        next hkeep =>
          rw [← length_getPattern, ← Nat.zero_add m] at hkeep
          have hbit := ConvolutionalCode.getElem?_puncture 0 hm hkeep
          rw [List.getD_eq_getElem?_getD, List.getElem?_map, hbit, List.getD_eq_getElem _ _ hm]
          rfl
        next => rfl
      · dsimp only
        rw [hphase, Nat.mod_add_mod]
      · dsimp only
        rw [hphase, hcount, htake, List.length_append]
        split <;> rfl

/-- Without puncturing every soft bit is converted. -/
theorem getNumInputsReq_none (numOut : Nat) : getNumInputsReq .none numOut = numOut := by
  have hloop : numInputsLoop .none numOut = (numOut, 0) := by
    induction numOut with
    | zero => rfl
    | succ numOut ih =>
        rw [numInputsLoop, ih]
        exact Prod.ext rfl (Nat.mod_one _)
  rw [getNumInputsReq, hloop]

theorem restores_puncture (exp : R → R) (soft : Bool → R) (puncturing : Punct)
    {coded : List Bool} {numOut : Nat} (hnum : numOut ≤ coded.length) :
    Restores exp soft puncturing coded
      (ConvolutionalCode.puncture (getPattern puncturing) 0 coded) numOut := by
  obtain ⟨hout, -, hcount⟩ := unpunctureLoop_spec exp soft puncturing coded hnum
  have hreq : getNumInputsReq puncturing numOut =
      (ConvolutionalCode.puncture (getPattern puncturing) 0 (coded.take numOut)).length := by
    rw [← hcount, getNumInputsReq, numInputsLoop_eq exp]
  have havailable : getNumInputsReq puncturing numOut ≤
      (ConvolutionalCode.puncture (getPattern puncturing) 0 coded).length := by
    rw [hreq, ← List.take_append_drop numOut coded, ConvolutionalCode.puncture_append,
      List.length_append, List.take_append_drop]
    exact Nat.le_add_right _ _
  by_cases hnone : puncturing = .none
  -- the decoder does not walk the pattern without puncturing
  · subst hnone
    refine ⟨?_, (getNumInputsReq_none numOut).symm, havailable⟩
    apply List.map_congr_left
    intro i hi
    have hlt : i < coded.length := Nat.lt_of_lt_of_le (List.mem_range.mp hi) hnum
    rw [restored, getPatternLen, Nat.mod_one]
    change mapToUInt8 exp (((ConvolutionalCode.puncture [true] 0 coded).map soft).getD i 0) = _
    rw [ConvolutionalCode.puncture_singleton_true, List.getD_eq_getElem?_getD, List.getElem?_map,
      List.getElem?_eq_getElem hlt]
    simp [getPattern, List.getElem?_eq_getElem hlt]
  · have hconvert : unpunctureAndConvert exp puncturing
        ((ConvolutionalCode.puncture (getPattern puncturing) 0 coded).map soft) numOut =
        ((unpunctureLoop exp puncturing
          ((ConvolutionalCode.puncture (getPattern puncturing) 0 coded).map soft) numOut).out,
        (unpunctureLoop exp puncturing
          ((ConvolutionalCode.puncture (getPattern puncturing) 0 coded).map soft)
            numOut).inCount) := by
      rw [unpunctureAndConvert]
      exact hnone
    exact ⟨by rw [hconvert, hout], by rw [hconvert, hcount, hreq], havailable⟩

/-- The words of the encoder repeat the phase of patterns whose length divides sixteen. -/
theorem restores_part (exp : R → R) (soft : Bool → R) (genPolyC1 genPolyC2 : BitVec 8)
    {puncturing : Punct} (hdvd : getPatternLen puncturing ∣ 16) (before after : List UInt8)
    {numOut : Nat} (hnum : numOut ≤ 16 * after.length) :
    Restores exp soft puncturing
      ((encodeBits (.make genPolyC1 genPolyC2 puncturing) Encoder.initial.state
        (before ++ after)).drop (16 * before.length))
      ((encodePunctBits (.make genPolyC1 genPolyC2 puncturing) .initial (before ++ after)).drop
        (encodePunctBits (.make genPolyC1 genPolyC2 puncturing) .initial before).length)
      numOut := by
  have hfollows := follows_initial puncturing
  have hlength : ∀ past bytes, (serial genPolyC1 genPolyC2 past (ofBytes bytes)).length =
      16 * bytes.length := by
    intro past bytes
    rw [length_serial, length_ofBytes, ← Nat.mul_assoc]
  -- every byte makes sixteen coded bits, a multiple of the pattern
  have hphase : ∀ bits, ConvolutionalCode.puncture (getPattern puncturing) (16 * before.length)
      bits = ConvolutionalCode.puncture (getPattern puncturing) 0 bits := by
    intro bits
    rw [← ConvolutionalCode.puncture_mod, length_getPattern,
      Nat.mod_eq_zero_of_dvd (Nat.dvd_mul_right_of_dvd hdvd _)]
  rw [encodeBits_eq _ _ _ hfollows.registers, encodePunctBits_eq _ _ hfollows,
    encodePunctBits_eq _ _ hfollows]
  simp only [List.reverse_nil, List.length_nil, Nat.mul_zero]
  rw [ofBytes_append, serial_append, ConvolutionalCode.puncture_append, List.drop_left, hlength,
    Nat.zero_add, hphase, ← hlength [] before, List.drop_left]
  exact restores_puncture exp soft puncturing (by rw [hlength]; exact hnum)

/-- Unpuncturing undoes the puncturing of every stream of words from its start, and for the
patterns that repeat every byte the puncturing of the encoder from any byte on. -/
theorem unpuncture_undoes_puncture (exp : R → R) (soft : Bool → R)
    (genPolyC1 genPolyC2 : BitVec 8) :
    (∀ (puncturing : Punct) (words : List (BitVec 16)) (n : Nat), 2 * n ≤ 16 * words.length →
      Restores exp soft puncturing (words.flatMap (low 16))
        (punctureWords (.make genPolyC1 genPolyC2 puncturing) 0 words) (2 * n)) ∧
    ∀ puncturing : Punct, puncturing = .none ∨ puncturing = .ecss23 →
      ∀ (before after : List UInt8) (n : Nat), 2 * n ≤ 16 * after.length →
        Restores exp soft puncturing
          ((encodeBits (.make genPolyC1 genPolyC2 puncturing) Encoder.initial.state
            (before ++ after)).drop (16 * before.length))
          ((encodePunctBits (.make genPolyC1 genPolyC2 puncturing) .initial (before ++ after)).drop
            (encodePunctBits (.make genPolyC1 genPolyC2 puncturing) .initial before).length)
          (2 * n) := by
  refine ⟨?_, ?_⟩
  · intro puncturing words n hn
    have hwords : punctureWords (.make genPolyC1 genPolyC2 puncturing) 0 words =
        ConvolutionalCode.puncture (getPattern puncturing) 0 (words.flatMap (low 16)) := by
      have hphase := punctureWords_eq (.make genPolyC1 genPolyC2 puncturing) words 0
      rwa [Nat.zero_mod] at hphase
    have hlength : (words.flatMap (low 16)).length = 16 * words.length := by
      simp [List.length_flatMap, Nat.mul_comm]
    rw [hwords]
    exact restores_puncture exp soft puncturing (by rw [hlength]; exact hn)
  · intro puncturing hpuncturing before after n hn
    apply restores_part exp soft genPolyC1 genPolyC2 _ before after hn
    rcases hpuncturing with rfl | rfl <;> decide

end Restore

end GrCcsds.ConvDecode
