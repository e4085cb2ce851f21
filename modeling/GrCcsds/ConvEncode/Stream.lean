import GrCcsds.ConvEncode.Encoder

/-! # The streaming encoder against the coded stream

The output bytes followed by the buffered bits are the coded stream of the
consumed input. Every iteration of the outer loop adds the bits of one input
byte, and every iteration of the inner loop moves a byte from the waiting bits
to the output.
-/

namespace GrCcsds.ConvEncode

open Foundation Foundation.Bits

/-- The bits below the buffered ones are clear. -/
def Padded (count : Nat) (buffer : BitVec 16) : Prop :=
  ∀ i < 16 - count, buffer.getLsbD i = false

theorem low_toByte (word : BitVec 16) : low 8 (toByte word).toBitVec = low 8 word := by
  apply low_congr
  intro i hi
  have hmask : ∀ i < 8, (0x00FF#16).getLsbD i = true := by decide
  rw [toByte, UInt8.toBitVec_ofBitVec, BitVec.getLsbD_setWidth, BitVec.getLsbD_and, hmask i hi]
  simp [hi]

/-- A byte that is combined from the buffer and new bits holds the buffered
bits and then the first of the new ones. -/
theorem low_combined (word buffer : BitVec 16) {count num : Nat} (hcount : count < 8)
    (hnum : num ≤ 16) (henough : 8 ≤ count + num) (hpadded : Padded count buffer) :
    low 8 (word <<< (16 - num) >>> (count + 8) ||| buffer >>> 8) =
      high count buffer ++ (low num word).take (8 - count) := by
  apply List.ext_getElem
  · simp only [high, length_low, List.length_append, List.length_take]
    omega
  · intro i hi _
    rw [length_low] at hi
    rw [getElem_low, BitVec.getLsbD_or, BitVec.getLsbD_ushiftRight, BitVec.getLsbD_ushiftRight,
      BitVec.getLsbD_shiftLeft]
    rcases Nat.lt_or_ge i count with hold | hnew
    · rw [List.getElem_append_left (by simpa [high] using hold)]
      simp only [high, getElem_low, BitVec.getLsbD_ushiftRight]
      have hbeyond : ¬ count + 8 + (8 - 1 - i) < 16 := by omega
      have hindex : 8 + (8 - 1 - i) = 16 - count + (count - 1 - i) := by omega
      simp [hbeyond, hindex]
    · rw [List.getElem_append_right (by simpa [high] using hnew)]
      simp only [high, List.getElem_take, getElem_low, length_low]
      have hclear : buffer.getLsbD (8 + (8 - 1 - i)) = false := hpadded _ (by omega)
      have hbelow : count + 8 + (8 - 1 - i) < 16 := by omega
      have habove : ¬ count + 8 + (8 - 1 - i) < 16 - num := by omega
      have hindex : count + 8 + (8 - 1 - i) - (16 - num) = num - 1 - (i - count) := by omega
      simp [hclear, hbelow, habove, hindex]

/-- The bits that wait for their output. -/
def Emission.waiting (word : BitVec 16) (e : Emission) : List Bool :=
  high e.bufferCount e.buffer ++ low e.numBitsOut word

/-- The inner loop moves whole bytes from the waiting bits to the output until
no byte is complete or no space is left. -/
structure Emits (word : BitVec 16) (room : Nat) (before after : Emission)
    (emitted : List UInt8) : Prop where
  out : after.out = before.out ++ emitted
  bits : ofBytes emitted ++ after.waiting word = before.waiting word
  length_le : emitted.length ≤ room
  complete : emitted.length = room ∨ after.bufferCount + after.numBitsOut < 8
  cleared : after = before ∨
    after.buffer = 0 ∧ after.bufferCount = 0 ∧ after.numBitsOut < 16

theorem Emits.refl (word : BitVec 16) {room : Nat} {e : Emission}
    (hcomplete : room = 0 ∨ e.bufferCount + e.numBitsOut < 8) : Emits word room e e [] where
  out := (List.append_nil _).symm
  bits := rfl
  length_le := Nat.zero_le _
  complete := hcomplete.imp_left Eq.symm
  cleared := Or.inl rfl

/-- One iteration of the inner loop moves the first eight waiting bits. -/
theorem emitByte_bits (word : BitVec 16) {e : Emission} (hcount : e.bufferCount < 8)
    (hnum : e.numBitsOut ≤ 16) (hpadded : Padded e.bufferCount e.buffer)
    (henough : 8 ≤ e.bufferCount + e.numBitsOut) :
    ∃ byte, (emitByte word e).out = e.out ++ [byte] ∧
      low 8 byte.toBitVec ++ (emitByte word e).waiting word = e.waiting word := by
  refine ⟨_, rfl, ?_⟩
  change low 8 (toByte (_ ||| _)).toBitVec ++ low (e.numBitsOut - (8 - e.bufferCount)) word = _
  rw [low_toByte, low_combined _ _ hcount hnum henough hpadded, Emission.waiting, ← drop_low,
    List.append_assoc, List.take_append_drop]

theorem emitLoop_spec (word : BitVec 16) (room : Nat) {e : Emission} (hcount : e.bufferCount < 8)
    (hnum : e.numBitsOut ≤ 16) (hpadded : Padded e.bufferCount e.buffer) :
    ∃ emitted, Emits word room e (emitLoop word room e) emitted := by
  induction room generalizing e with
  | zero => exact ⟨[], Emits.refl word (Or.inl rfl)⟩
  | succ room ih =>
      rw [emitLoop]
      split
      next henough =>
        obtain ⟨byte, hbyte, hbits⟩ := emitByte_bits word hcount hnum hpadded henough
        have hnumNext : (emitByte word e).numBitsOut < 16 := by
          change e.numBitsOut - (8 - e.bufferCount) < 16
          omega
        obtain ⟨emitted, hemits⟩ := ih (e := emitByte word e) (Nat.succ_pos 7)
          (Nat.le_of_lt hnumNext)
          (fun i _ => BitVec.getLsbD_zero)
        refine ⟨byte :: emitted, ?_, ?_, Nat.succ_le_succ hemits.length_le, ?_, Or.inr ?_⟩
        · rw [hemits.out, hbyte, List.append_assoc]
          rfl
        · rw [ofBytes_cons, List.append_assoc, hemits.bits, hbits]
        · exact hemits.complete.imp_left fun heq => congrArg Nat.succ heq
        · rcases hemits.cleared with heq | hcleared
          · rw [heq]
            exact ⟨rfl, rfl, hnumNext⟩
          · exact hcleared
      next hshort => exact ⟨[], Emits.refl word (Or.inr (Nat.lt_of_not_le hshort))⟩

variable (genPolyC1 genPolyC2 : BitVec 8) (puncturing : Punct)

/-- The block after it has consumed some bits and output some bytes. -/
structure Streams (bits : List Bool) (out : List UInt8) (s : State) : Prop where
  follows : s.encoder.Follows puncturing bits
  stream : ofBytes out ++ high s.bufferCount s.buffer =
    coded genPolyC1 genPolyC2 puncturing bits
  padded : Padded s.bufferCount s.buffer
  count_lt : s.bufferCount < 16

theorem streams_initial : Streams genPolyC1 genPolyC2 puncturing [] [] .initial where
  follows := follows_initial puncturing
  stream := rfl
  padded := fun i _ => BitVec.getLsbD_zero
  count_lt := by decide

/-- The coded stream continues with the punctured bits of the next byte. -/
theorem coded_append (bits next : List Bool) :
    coded genPolyC1 genPolyC2 puncturing (bits ++ next) =
      coded genPolyC1 genPolyC2 puncturing bits ++
        ConvolutionalCode.puncture (getPattern puncturing) (2 * bits.length)
          (serial genPolyC1 genPolyC2 bits.reverse next) := by
  rw [coded, serial, ConvolutionalCode.encode_append, ConvolutionalCode.puncture_append,
    ConvolutionalCode.length_encode, Nat.zero_add, List.append_nil]
  rfl

variable {genPolyC1 genPolyC2 puncturing}

/-- One iteration of the outer loop. -/
theorem Streams.encodeByte {bits : List Bool} {out : List UInt8} {s : State}
    (hstreams : Streams genPolyC1 genPolyC2 puncturing bits out s) (hcount : s.bufferCount < 8)
    {room : Nat} (hroom : 0 < room) (inputByte : UInt8) :
    ∃ next emitted, encodeByte (.make genPolyC1 genPolyC2 puncturing) room s inputByte =
        (next, emitted) ∧
      Streams genPolyC1 genPolyC2 puncturing (bits ++ low 8 inputByte.toBitVec)
        (out ++ emitted) next ∧
      emitted.length ≤ room ∧ (emitted.length = room ∨ next.bufferCount < 8) := by
  obtain ⟨word, num, encoder, hencode, hbits, hmin, hmax, hfollows⟩ :=
    encodePunct_spec genPolyC1 genPolyC2 puncturing hstreams.follows inputByte
  obtain ⟨emitted, hemits⟩ := emitLoop_spec word room
    (e := { numBitsOut := num, buffer := s.buffer, bufferCount := s.bufferCount, out := [] })
    hcount hmax hstreams.padded
  generalize hafter : emitLoop word room _ = after at hemits
  have hout : after.out = emitted := hemits.out
  -- eight new bits complete a byte, so the buffer has been emptied
  obtain ⟨hbuffer, hnone, hfew⟩ : after.buffer = 0 ∧ after.bufferCount = 0 ∧
      after.numBitsOut < 16 := by
    rcases hemits.cleared with heq | hcleared
    · subst heq
      rcases hemits.complete with hfull | hshort
      · rw [← hout] at hfull
        exact absurd hfull (Nat.ne_of_lt hroom)
      · change s.bufferCount + num < 8 at hshort
        omega
    · exact hcleared
  have hwaiting : after.waiting word = low after.numBitsOut word := by
    rw [Emission.waiting, hnone]
    rfl
  have hstream : ofBytes (out ++ emitted) ++ low after.numBitsOut word =
      coded genPolyC1 genPolyC2 puncturing (bits ++ low 8 inputByte.toBitVec) := by
    rw [coded_append, ← hstreams.stream, ← hbits, ofBytes_append, List.append_assoc,
      List.append_assoc, ← hwaiting, hemits.bits]
    rfl
  simp only [ConvEncode.encodeByte, hencode, hafter, hout]
  by_cases hleft : after.numBitsOut > 0
  · rw [if_pos hleft]
    refine ⟨_, _, rfl, ⟨hfollows, ?_, ?_, hfew⟩, hemits.length_le, ?_⟩
    · rw [← hstream]
      congr 1
      exact high_shiftLeft word (Nat.le_of_lt hfew)
    · intro i hi
      change i < 16 - after.numBitsOut at hi
      simp [hi]
    · apply hemits.complete.imp_right
      intro hshort
      rwa [hnone, Nat.zero_add] at hshort
  · rw [if_neg hleft, hbuffer, hnone]
    rw [Nat.eq_zero_of_not_pos hleft] at hstream
    refine ⟨_, _, rfl, ⟨hfollows, hstream, ?_, Nat.succ_pos 15⟩, hemits.length_le, Or.inr ?_⟩
    · intro i _
      exact BitVec.getLsbD_zero
    · exact Nat.succ_pos 7

/-- A buffer with a complete byte gives it away. -/
theorem high_flush (buffer : BitVec 16) {count : Nat} (hbyte : 8 ≤ count) (hcount : count < 16) :
    low 8 (toByte (buffer >>> 8)).toBitVec ++ high (count - 8) (buffer <<< 8) =
      high count buffer := by
  have hfirst : (high count buffer).take 8 = low 8 (buffer >>> 8) := by
    rw [high, take_low _ hbyte]
    apply low_congr
    intro i hi
    rw [BitVec.getLsbD_ushiftRight, BitVec.getLsbD_ushiftRight, BitVec.getLsbD_ushiftRight]
    congr 1
    omega
  have hrest : (high count buffer).drop 8 = high (count - 8) (buffer <<< 8) := by
    rw [high, drop_low, high]
    apply low_congr
    intro i hi
    rw [BitVec.getLsbD_ushiftRight, BitVec.getLsbD_ushiftRight, BitVec.getLsbD_shiftLeft]
    have hbelow : 16 - (count - 8) + i < 16 := by omega
    have habove : ¬ 16 - (count - 8) + i < 8 := by omega
    have hindex : 16 - (count - 8) + i - 8 = 16 - count + i := by omega
    simp [hbelow, habove, hindex]
  rw [low_toByte, ← hfirst, ← hrest, List.take_append_drop]

/-- A byte that did not fit the output of the last call goes out first. -/
theorem Streams.flush {bits : List Bool} {out : List UInt8} {s : State}
    (hstreams : Streams genPolyC1 genPolyC2 puncturing bits out s) (hbyte : 8 ≤ s.bufferCount) :
    Streams genPolyC1 genPolyC2 puncturing bits (out ++ [toByte (s.buffer >>> 8)])
      { s with buffer := s.buffer <<< 8, bufferCount := s.bufferCount - 8 } := by
  have hcount := hstreams.count_lt
  refine ⟨hstreams.follows, ?_, ?_, Nat.lt_of_le_of_lt (Nat.sub_le _ _) hcount⟩
  · rw [← hstreams.stream, ofBytes_append, List.append_assoc, ← high_flush _ hbyte hcount]
    simp
  · intro i hi
    change i < 16 - (s.bufferCount - 8) at hi
    rcases Nat.lt_or_ge i 8 with hlow | hhigh
    · simp [hlow]
    · have hclear := hstreams.padded (i - 8) (by omega)
      simp [hclear]

/-- A relation between the consumed bits, the output and the block that the iterations of the
outer loop keep, and so does a byte that goes out first. -/
structure Maintained (genPolyC1 genPolyC2 : BitVec 8) (puncturing : Punct)
    (inv : List Bool → List UInt8 → State → Prop) : Prop where
  encodeByte : ∀ {bits out s}, inv bits out s → s.bufferCount < 8 → ∀ {room}, 0 < room →
    ∀ inputByte, ∃ next emitted,
      encodeByte (.make genPolyC1 genPolyC2 puncturing) room s inputByte = (next, emitted) ∧
        inv (bits ++ low 8 inputByte.toBitVec) (out ++ emitted) next ∧
        (emitted.length = room ∨ next.bufferCount < 8)
  flush : ∀ {bits out s}, inv bits out s → 8 ≤ s.bufferCount → s.bufferCount < 16 ∧
    inv bits (out ++ [toByte (s.buffer >>> 8)])
      { s with buffer := s.buffer <<< 8, bufferCount := s.bufferCount - 8 }

namespace Maintained

variable {inv : List Bool → List UInt8 → State → Prop}
  (hmaintained : Maintained genPolyC1 genPolyC2 puncturing inv)

include hmaintained

theorem workLoop {bits : List Bool} {out : List UInt8} {s : State} (hinv : inv bits out s)
    (input : List UInt8) {room : Nat} (hcount : room = 0 ∨ s.bufferCount < 8) :
    ∃ worked, workLoop (.make genPolyC1 genPolyC2 puncturing) input room s = worked ∧
      inv (bits ++ ofBytes (input.take worked.numIn)) (out ++ worked.out) worked.state ∧
      worked.numIn ≤ input.length := by
  refine ⟨_, rfl, ?_⟩
  induction input generalizing room bits out s with
  | nil => simpa [ConvEncode.workLoop] using hinv
  | cons byte rest ih =>
      cases room with
      | zero => simpa [ConvEncode.workLoop] using hinv
      | succ room =>
          obtain ⟨next, emitted, hencode, hnext, hcomplete⟩ :=
            hmaintained.encodeByte hinv (hcount.resolve_left (Nat.succ_ne_zero room))
              (Nat.succ_pos room) byte
          have hroom : room + 1 - emitted.length = 0 ∨ next.bufferCount < 8 := by
            apply hcomplete.imp_left
            intro hfull
            rw [hfull, Nat.sub_self]
          obtain ⟨hrest, hle⟩ := ih hnext hroom
          rw [ConvEncode.workLoop, hencode]
          refine ⟨?_, Nat.succ_le_succ hle⟩
          rw [List.append_assoc, List.append_assoc] at hrest
          simpa using hrest

theorem generalWork {bits : List Bool} {out : List UInt8} {s : State} (hinv : inv bits out s)
    (noutputItems : Nat) (input : List UInt8) :
    ∃ worked, generalWork (.make genPolyC1 genPolyC2 puncturing) noutputItems s input = worked ∧
      inv (bits ++ ofBytes (input.take worked.numIn)) (out ++ worked.out) worked.state ∧
      worked.numIn ≤ input.length := by
  refine ⟨_, rfl, ?_⟩
  unfold ConvEncode.generalWork
  split
  next hbyte =>
    cases noutputItems with
    | zero => simpa using hinv
    | succ room =>
        obtain ⟨hcount, hflushed⟩ := hmaintained.flush hinv hbyte
        have hfew : room = 0 ∨ s.bufferCount - 8 < 8 := Or.inr (by omega)
        obtain ⟨worked, hwork, hworked, hle⟩ := hmaintained.workLoop hflushed input hfew
        subst hwork
        refine ⟨?_, hle⟩
        rw [List.append_assoc] at hworked
        exact hworked
  next hshort =>
    have hfew : noutputItems = 0 ∨ s.bufferCount < 8 := Or.inr (Nat.lt_of_not_le hshort)
    obtain ⟨worked, hwork, hworked, hle⟩ := hmaintained.workLoop hinv input hfew
    subst hwork
    exact ⟨hworked, hle⟩

/-- The relation holds after any calls, between the bits that they consume together and their
output. -/
theorem runCalls {bits : List Bool} {out : List UInt8} {s : State} (hinv : inv bits out s)
    (calls : List Call) (stream : List UInt8) :
    ∃ worked, runCalls (.make genPolyC1 genPolyC2 puncturing) calls s stream = worked ∧
      inv (bits ++ ofBytes (stream.take worked.numIn)) (out ++ worked.out) worked.state := by
  refine ⟨_, rfl, ?_⟩
  induction calls generalizing stream bits out s with
  | nil => simpa [ConvEncode.runCalls] using hinv
  | cons call rest ih =>
      obtain ⟨first, hfirst, hworked, hle⟩ :=
        hmaintained.generalWork hinv call.noutputItems (stream.take call.available)
      have hlater := ih hworked (stream.drop first.numIn)
      rw [ConvEncode.runCalls, hfirst]
      have htaken : (stream.take call.available).take first.numIn = stream.take first.numIn := by
        rw [List.take_take, Nat.min_eq_left]
        exact Nat.le_trans hle (List.length_take_le _ _)
      rw [htaken, List.append_assoc, ← ofBytes_append, ← List.take_add, List.append_assoc]
        at hlater
      exact hlater

end Maintained

theorem streams_maintained : Maintained genPolyC1 genPolyC2 puncturing
    (Streams genPolyC1 genPolyC2 puncturing) where
  encodeByte := by
    intro bits out s hstreams hcount room hroom inputByte
    obtain ⟨next, emitted, hencode, hnext, -, hcomplete⟩ :=
      hstreams.encodeByte hcount hroom inputByte
    exact ⟨next, emitted, hencode, hnext, hcomplete⟩
  flush := fun hstreams hbyte => ⟨hstreams.count_lt, hstreams.flush hbyte⟩

theorem length_emitLoop_le (word : BitVec 16) (room : Nat) (e : Emission) :
    (emitLoop word room e).out.length ≤ e.out.length + room := by
  induction room generalizing e with
  | zero => exact le_rfl
  | succ room ih =>
      rw [emitLoop]
      split
      · refine (ih _).trans ?_
        rw [emitByte, List.length_append, List.length_singleton]
        omega
      · exact Nat.le_add_right _ _

/-- The loop of the encoder ends with its input or with the space for its output. -/
theorem workLoop_ends (cfg : Config) (input : List UInt8) (room : Nat)
    (s : State) :
    (workLoop cfg input room s).numIn = input.length ∨
      (workLoop cfg input room s).out.length = room := by
  induction input generalizing room s with
  | nil => exact .inl rfl
  | cons byte rest ih =>
      cases room with
      | zero => exact .inr rfl
      | succ room =>
          rw [workLoop]
          dsimp only
          have hfits : (encodeByte cfg (room + 1) s byte).2.length ≤ room + 1 := by
            have hloop := length_emitLoop_le (encodePunct cfg s.encoder byte).1
              (room + 1) ⟨(encodePunct cfg s.encoder byte).2.1, s.buffer,
                s.bufferCount, []⟩
            rw [List.length_nil, Nat.zero_add] at hloop
            rw [encodeByte]
            dsimp only
            split <;> exact hloop
          rcases ih (room + 1 - (encodeByte cfg (room + 1) s byte).2.length)
            (encodeByte cfg (room + 1) s byte).1 with hall | hfull
          · exact .inl (congrArg Nat.succ hall)
          · right
            rw [List.length_append, hfull]
            omega

/-- A call with input and space for output consumes a byte or puts one out. -/
theorem generalWork_progress (cfg : Config) {noutputItems : Nat} (hspace : 0 < noutputItems)
    (s : State) {input : List UInt8} (hinput : input ≠ []) :
    0 < (generalWork cfg noutputItems s input).numIn +
      (generalWork cfg noutputItems s input).out.length := by
  rw [generalWork, if_pos hspace]
  split
  next =>
    exact Nat.add_pos_right _ (Nat.succ_pos _)
  next =>
    apply Nat.add_pos_left
    obtain ⟨byte, rest, rfl⟩ := List.exists_cons_of_ne_nil hinput
    obtain ⟨room, rfl⟩ := Nat.exists_eq_succ_of_ne_zero hspace.ne'
    exact Nat.succ_pos _

/-- As long as there is input, every call that offers some of it and has space makes progress. -/
theorem runCalls_progress (cfg : Config) {calls : List Call}
    (hcalls : ∀ call ∈ calls, 0 < call.noutputItems ∧ 0 < call.available) (s : State)
    (stream : List UInt8) :
    stream.length ≤ (runCalls cfg calls s stream).numIn ∨
      calls.length ≤ (runCalls cfg calls s stream).numIn +
        (runCalls cfg calls s stream).out.length := by
  induction calls generalizing s stream with
  | nil => exact .inr (Nat.zero_le _)
  | cons call rest ih =>
      obtain ⟨⟨hspace, havailable⟩, hrest⟩ := List.forall_mem_cons.mp hcalls
      rcases eq_or_ne stream [] with rfl | hinput
      · exact .inl (Nat.zero_le _)
      · have hoffered : stream.take call.available ≠ [] := by
          intro hnone
          rcases List.take_eq_nil_iff.mp hnone with hzero | hnil
          · exact havailable.ne' hzero
          · exact hinput hnil
        have hfirst := generalWork_progress cfg hspace s hoffered
        have hlater := ih hrest (generalWork cfg call.noutputItems s
          (stream.take call.available)).state (stream.drop (generalWork cfg call.noutputItems s
            (stream.take call.available)).numIn)
        rw [List.length_drop] at hlater
        rw [runCalls, List.length_cons]
        dsimp only
        rw [List.length_append]
        omega

/-- A block puts out at most two bytes for each one that it has consumed. -/
theorem Streams.length_out_le {input out : List UInt8} {s : State}
    (hstreams : Streams genPolyC1 genPolyC2 puncturing (ofBytes input) out s) :
    out.length ≤ 2 * input.length := by
  have hcoded : (coded genPolyC1 genPolyC2 puncturing (ofBytes input)).length ≤
      16 * input.length := by
    refine (ConvolutionalCode.length_puncture_le _ _).trans ?_
    rw [length_serial, length_ofBytes, ← Nat.mul_assoc]
  rw [← hstreams.stream, List.length_append, length_ofBytes] at hcoded
  omega

/-- Enough calls that each offer input and space put out the coded stream of all the input, but for
the buffered bits. -/
theorem runCalls_complete (genPolyC1 genPolyC2 : BitVec 8) (puncturing : Punct)
    {calls : List Call}
    (hcalls : ∀ call ∈ calls, 0 < call.noutputItems ∧ 0 < call.available) {stream : List UInt8}
    (henough : 3 * stream.length ≤ calls.length) :
    let worked := runCalls (.make genPolyC1 genPolyC2 puncturing) calls .initial stream
    ofBytes worked.out ++ high worked.state.bufferCount worked.state.buffer =
      coded genPolyC1 genPolyC2 puncturing (ofBytes stream) := by
  intro worked
  obtain ⟨_, hrun, hstreams⟩ :=
    streams_maintained.runCalls (streams_initial genPolyC1 genPolyC2 puncturing) calls stream
  subst hrun
  rw [List.nil_append, List.nil_append] at hstreams
  have hout := hstreams.length_out_le
  have hprogress := runCalls_progress (.make genPolyC1 genPolyC2 puncturing) hcalls .initial stream
  rw [List.length_take] at hout
  have hall : stream.length ≤ worked.numIn := by
    change _ ≤ worked.numIn ∨ _ ≤ worked.numIn + worked.out.length at hprogress
    change worked.out.length ≤ 2 * min worked.numIn _ at hout
    omega
  rw [hstreams.stream, List.take_of_length_le hall]

/-- In every run the output bytes followed by the buffered bits are the coded
stream of the consumed bytes, and the buffer never holds more than fifteen
bits. -/
theorem runCalls_stream (genPolyC1 genPolyC2 : BitVec 8) (puncturing : Punct)
    (calls : List Call) (stream : List UInt8) :
    let worked := runCalls (.make genPolyC1 genPolyC2 puncturing) calls .initial stream
    ofBytes worked.out ++ high worked.state.bufferCount worked.state.buffer =
        coded genPolyC1 genPolyC2 puncturing (ofBytes (stream.take worked.numIn)) ∧
      worked.state.bufferCount < 16 := by
  intro worked
  obtain ⟨_, hrun, hstreams⟩ :=
    streams_maintained.runCalls (streams_initial genPolyC1 genPolyC2 puncturing) calls stream
  subst hrun
  exact ⟨hstreams.stream, hstreams.count_lt⟩

end GrCcsds.ConvEncode
