import GrCcsds.ConvDecode.Message
import GrCcsds.ConvDecode.Trellis
import GrCcsds.ConvEncode.Stream
import GrCcsds.Foundation.FreeDistance
import Mathlib.Data.List.MinMax

/-! # Frames through the convolutional code

The encoder runs over frames behind their ASMs. The decoder of libfec returns
the bits of a path through its trellis that fits the soft symbols best, where
another state than the first one costs a bias. The distances of the paths say
how many soft bits of a frame may be wrong.
-/

namespace GrCcsds.ConvDecode

open Utils Foundation Foundation.Bits Foundation.FreeDistance ConvEncode Softbits Messages

namespace Trellis

/-- The machine that runs through the differences of two paths. An inversion makes no
difference. -/
def differences (polys : List Int) : Machine where
  states := 64
  next state bit := register state bit &&& 0x3F
  weight state bit :=
    (polys.map fun poly => (parity (register state bit &&& poly.natAbs)).toNat).sum

theorem foldl_testBit_xor (first second : Nat) (indices : List Nat) (a b : Bool) :
    indices.foldl (fun parity i => parity ^^ (first ^^^ second).testBit i) (a ^^ b) =
      (indices.foldl (fun parity i => parity ^^ first.testBit i) a ^^
        indices.foldl (fun parity i => parity ^^ second.testBit i) b) := by
  induction indices generalizing a b with
  | nil => rfl
  | cons i rest ih =>
      have hbit : ((a ^^ b) ^^ (first ^^^ second).testBit i) =
          ((a ^^ first.testBit i) ^^ (b ^^ second.testBit i)) := by
        rw [Nat.testBit_xor, Bool.xor_assoc, Bool.xor_assoc, Bool.xor_left_comm b]
      rw [List.foldl_cons, hbit, ih]
      rfl

theorem parity_xor (first second : Nat) :
    parity (first ^^^ second) = (parity first ^^ parity second) :=
  foldl_testBit_xor first second (List.range 7) false false

theorem register_xor (first second : Nat) (a b : Bool) :
    register (first ^^^ second) (a ^^ b) = register first a ^^^ register second b := by
  apply Nat.eq_of_testBit_eq
  intro i
  cases i with
  | zero =>
      have hbit : ∀ word bit, (register word bit).testBit 0 = bit := by
        intro word bit
        rw [register, Nat.testBit_or, Nat.testBit_shiftLeft]
        cases bit <;> rfl
      rw [Nat.testBit_xor, hbit, hbit, hbit]
  | succ i =>
      have hbit : ∀ bit : Bool, bit.toNat.testBit (i + 1) = false := by
        intro bit
        cases bit <;> simp [Nat.testBit_succ]
      simp [register, hbit]

variable {polys : List Int}

theorem next_xor (first second : Nat) (a b : Bool) :
    (differences polys).next (first ^^^ second) (a ^^ b) =
      (register first a &&& 0x3F) ^^^ (register second b &&& 0x3F) := by
  change register (first ^^^ second) (a ^^ b) &&& 0x3F = _
  rw [register_xor, Nat.and_xor_distrib_right]

theorem output_xor (poly : Int) (first second : Nat) :
    (output poly first ^^ output poly second) = parity ((first ^^^ second) &&& poly.natAbs) := by
  rw [output, output, Nat.and_xor_distrib_right, parity_xor]
  generalize parity (first &&& poly.natAbs) = a
  generalize parity (second &&& poly.natAbs) = b
  cases decide (poly < 0) <;> simp

theorem weight_xor (first second : Nat) (a b : Bool) :
    (differences polys).weight (first ^^^ second) (a ^^ b) =
      distance (polys.map fun poly => output poly (register first a))
        (polys.map fun poly => output poly (register second b)) := by
  rw [distance, List.zipWith_map, List.zipWith_self, differences]
  simp only [register_xor, output_xor]

@[simp] theorem length_run (state : Nat) (bits : List Bool) :
    (run polys state bits).1.length = polys.length * bits.length := by
  induction bits generalizing state with
  | nil => rfl
  | cons bit rest ih =>
      rw [run]
      dsimp only
      rw [List.length_append, List.length_map, ih, List.length_cons, Nat.mul_succ, Nat.add_comm]

/-- The differences of two paths are a path of the machine, whose weight is their distance. -/
theorem run_xor {first second : List Bool} (hlength : first.length = second.length)
    (s other : Nat) :
    (differences polys).final (s ^^^ other) (List.zipWith xor first second) =
        (run polys s first).2 ^^^ (run polys other second).2 ∧
      (differences polys).total (s ^^^ other) (List.zipWith xor first second) =
        distance (run polys s first).1 (run polys other second).1 := by
  induction first generalizing second s other with
  | nil =>
      obtain rfl := List.eq_nil_of_length_eq_zero hlength.symm
      exact ⟨rfl, rfl⟩
  | cons bit rest ih =>
      obtain ⟨bit', others, rfl⟩ := List.exists_cons_of_length_eq_add_one hlength.symm
      have hrest : rest.length = others.length := Nat.succ.inj hlength
      obtain ⟨hfinal, htotal⟩ := ih hrest (register s bit &&& 0x3F) (register other bit' &&& 0x3F)
      rw [List.zipWith_cons_cons, Machine.final, Machine.total, next_xor, hfinal, htotal,
        weight_xor, run, run]
      refine ⟨rfl, (distance_append ?_ _ _).symm⟩
      rw [List.length_map, List.length_map]

theorem eq_of_xor {first second : List Bool} (hlength : first.length = second.length)
    (hsame : true ∉ List.zipWith xor first second) : first = second := by
  apply List.ext_getElem hlength
  intro i hi hi'
  by_contra hne
  apply hsame
  have hzip : i < (List.zipWith xor first second).length := by
    rw [List.length_zipWith]
    omega
  have hset : (List.zipWith xor first second)[i] = true := by
    rw [List.getElem_zipWith]
    cases hfirst : first[i] <;> cases hsecond : second[i] <;> simp_all
  exact hset ▸ List.getElem_mem hzip

end Trellis

/-- A path to a state. -/
structure Path (polys : List Int) (numSteps termState s : Nat) (bits : List Bool) : Prop where
  lt : s < 64
  length : bits.length = numSteps
  final : (Trellis.run polys s bits).2 = termState

/-- What the soft symbols cost on a path, and the bias where it begins in another state than it
should. -/
def pathCost (polys : List Int) (bias startState : Nat) (symbols : List UInt8) (s : Nat)
    (bits : List Bool) : Nat :=
  (if s = startState then 0 else bias) + cost (Trellis.run polys s bits).1 symbols

/-- The decoder of libfec returns the bits of one of the paths that cost least, without the
tail. -/
def Nearest (polys : List Int) (bias : Nat) (viterbi : Viterbi) : Prop :=
  ∀ (startState : Nat) (symbols : List UInt8) (numBits termState : Nat), numBits % 8 = 0 →
    symbols.length = polys.length * (numBits + 6) →
    (∃ s bits, Path polys (numBits + 6) termState s bits) →
    ∃ s bits, Path polys (numBits + 6) termState s bits ∧
      ofBytes (viterbi startState symbols (numBits + 6) numBits termState) = bits.take numBits ∧
      ∀ other others, Path polys (numBits + 6) termState other others →
        pathCost polys bias startState symbols s bits ≤
          pathCost polys bias startState symbols other others

variable {polys : List Int} {bias inside outside margin errors : Nat} {viterbi : Viterbi}

/-- Few weak symbols leave no other path that costs as little as the one that was sent. -/
theorem Nearest.decodes (hnearest : Nearest polys bias viterbi)
    (hseparates : (Trellis.differences polys).Separates inside outside)
    (hinside : (margin + 255) * errors < margin * inside)
    (houtside : (margin + 255) * errors < margin * outside + bias)
    {startState numBits : Nat} {bits : List Bool} {symbols : List UInt8}
    (hstart : startState < 64) (hlength : bits.length = numBits + 6) (hbyte : numBits % 8 = 0)
    (hsymbols : symbols.length = polys.length * (numBits + 6))
    (hweak : weak margin (Trellis.run polys startState bits).1 symbols ≤ errors) :
    ofBytes (viterbi startState symbols (numBits + 6) numBits
      (Trellis.run polys startState bits).2) = bits.take numBits := by
  have hsent : Path polys (numBits + 6) (Trellis.run polys startState bits).2 startState bits :=
    ⟨hstart, hlength, rfl⟩
  obtain ⟨s, best, hbest, hresult, hleast⟩ :=
    hnearest startState symbols numBits _ hbyte hsymbols ⟨_, _, hsent⟩
  have hcost := hleast _ _ hsent
  rw [hresult]
  suffices hequal : bits = best by rw [hequal]
  by_contra hne
  have hsame : bits.length = best.length := hlength.trans hbest.length.symm
  obtain ⟨hfinal, htotal⟩ : (Trellis.differences polys).final _ _ = _ ∧ _ :=
    Trellis.run_xor hsame startState s
  have hset : true ∈ List.zipWith xor bits best := by
    by_contra hnone
    exact hne (Trellis.eq_of_xor hsame hnone)
  rw [hbest.final, Nat.xor_self] at hfinal
  have hdistance := cost_add_le margin
    (show (Trellis.run polys startState bits).1.length = symbols.length by
      rw [Trellis.length_run, hlength, hsymbols])
    (show (Trellis.run polys s best).1.length = symbols.length by
      rw [Trellis.length_run, hbest.length, hsymbols])
  have hfew := Nat.mul_le_mul_left (margin + 255) hweak
  rw [pathCost, pathCost, if_pos rfl, Nat.zero_add] at hcost
  split at hcost
  next hs =>
    -- a path from the same state differs in the distance of the code
    subst hs
    rw [Nat.xor_self] at hfinal htotal
    have hfar := hseparates.inside _ hfinal hset
    have hmargin := Nat.mul_le_mul_left margin (htotal ▸ hfar)
    omega
  next hs =>
    have hlt : startState ^^^ s < 64 := Nat.xor_lt_two_pow (n := 6) hstart hbest.lt
    have hfar := hseparates.outside _ hlt _ hfinal hset
    have hmargin := Nat.mul_le_mul_left margin (htotal ▸ hfar)
    omega

section Frames

variable {genPolyC1 genPolyC2 : BitVec 8} {asm : String}

/-- The frames as the encoder gets them. -/
def marked (asm : String) (payloads : List (List UInt8)) : List UInt8 :=
  payloads.flatMap fun payload => hexstringToBinary asm ++ payload

theorem length_marked {payloads : List (List UInt8)} {size : Nat}
    (hsize : ∀ payload ∈ payloads, payload.length = size) :
    (marked asm payloads).length = payloads.length * ((hexstringToBinary asm).length + size) := by
  induction payloads with
  | nil => simp [marked]
  | cons payload rest ih =>
      have hrest := ih fun other hother => hsize other (List.mem_cons_of_mem _ hother)
      rw [marked] at hrest ⊢
      rw [List.flatMap_cons, List.length_append, List.length_append, hrest,
        hsize payload List.mem_cons_self, List.length_cons, Nat.succ_mul, Nat.add_comm]

/-- The position of the first coded bit behind the ASM of a frame. -/
def codedStart (asm : String) (size k : Nat) : Nat :=
  16 * (k * ((hexstringToBinary asm).length + size) + (hexstringToBinary asm).length)

/-- The coded bits of a frame, and of as much of the next ASM as the decoder needs. -/
def codedFrame (asm : String) (size k : Nat) (stream : List Bool) : List Bool :=
  (stream.drop (codedStart asm size k)).take (2 * (8 * size + 6))

theorem take_serial (past bits : List Bool) (n : Nat) :
    (serial genPolyC1 genPolyC2 past bits).take (2 * n) =
      serial genPolyC1 genPolyC2 past (bits.take n) := by
  have hsplit := serial_append genPolyC1 genPolyC2 past (bits.take n) (bits.drop n)
  rw [List.take_append_drop] at hsplit
  rcases Nat.le_total n bits.length with hn | hn
  · rw [hsplit, List.take_left' (by rw [length_serial, List.length_take, Nat.min_eq_left hn])]
  · rw [List.take_of_length_le hn, List.take_of_length_le]
    rw [length_serial]
    omega

/-- The coded bits of some bytes within a stream, and of six bits more. -/
theorem serial_between (before bytes after : List UInt8) :
    ((serial genPolyC1 genPolyC2 [] (ofBytes (before ++ bytes ++ after))).drop
        (16 * before.length)).take (2 * (8 * bytes.length + 6)) =
      serial genPolyC1 genPolyC2 (ofBytes before).reverse
        (ofBytes bytes ++ (ofBytes after).take 6) := by
  have hstart : 16 * before.length = (serial genPolyC1 genPolyC2 [] (ofBytes before)).length := by
    rw [length_serial, length_ofBytes]
    omega
  rw [List.append_assoc, ofBytes_append, serial_append, hstart, List.drop_left, List.append_nil,
    take_serial, ofBytes_append, ← length_ofBytes, List.take_length_add_append]

theorem marked_split {payloads : List (List UInt8)} {k : Nat} (hk : k < payloads.length) :
    marked asm payloads = marked asm (payloads.take k) ++ hexstringToBinary asm ++ payloads[k] ++
      marked asm (payloads.drop (k + 1)) := by
  have hsplit : payloads = payloads.take k ++ payloads[k] :: payloads.drop (k + 1) := by
    rw [List.getElem_cons_drop, List.take_append_drop]
  calc marked asm payloads
    _ = marked asm (payloads.take k ++ payloads[k] :: payloads.drop (k + 1)) :=
        congrArg (marked asm) hsplit
    _ = _ := by
        rw [marked, List.flatMap_append, List.flatMap_cons, ← List.append_assoc,
          ← List.append_assoc]
        rfl

/-- A frame with the begin of the next ASM behind it is coded on a path. -/
theorem codedFrame_serial (heven : asm.length % 2 = 0) (hpos : asm.length ≠ 0)
    {payloads : List (List UInt8)} {size k : Nat}
    (hsize : ∀ payload ∈ payloads, payload.length = size) {payload : List UInt8}
    (hpayload : payloads[k]? = some payload)
    (hnext : codedStart asm size k + 2 * (8 * size + 6) ≤ 16 * (marked asm payloads).length) :
    codedFrame asm size k (serial genPolyC1 genPolyC2 [] (ofBytes (marked asm payloads))) =
      serial genPolyC1 genPolyC2 ((ofBytes (hexstringToBinary asm)).reverse ++
        (ofBytes (marked asm (payloads.take k))).reverse) (pathBits asm payload) := by
  obtain ⟨hk, rfl⟩ := List.getElem?_eq_some_iff.mp hpayload
  have hbefore : (marked asm (payloads.take k)).length = (payloads.take k).length * _ :=
    length_marked fun other hother => hsize other (List.mem_of_mem_take hother)
  rw [List.length_take, Nat.min_eq_left hk.le] at hbefore
  obtain ⟨-, hne⟩ := hexstringToBinary_ne_nil heven hpos
  have hframe := hsize _ (List.getElem_mem hk)
  have hlength : (marked asm payloads).length = _ := congrArg List.length (marked_split hk)
  simp only [List.length_append, hbefore, hframe] at hlength
  -- the bits behind the frame are the begin of an ASM
  have htail : (ofBytes (marked asm (payloads.drop (k + 1)))).take 6 =
      (ofBytes (hexstringToBinary asm)).take 6 := by
    cases hrest : payloads.drop (k + 1) with
    | nil =>
        have hnone : (marked asm []).length = 0 := rfl
        rw [hrest, hnone] at hlength
        rw [codedStart] at hnext
        omega
    | cons next rest =>
        have hbits : 6 ≤ (ofBytes (hexstringToBinary asm)).length := by
          have := List.length_pos_iff.mpr hne
          rw [length_ofBytes]
          omega
        rw [marked, List.flatMap_cons, List.append_assoc, ofBytes_append,
          List.take_append_of_le_length hbits]
  have hstart : codedStart asm size k =
      16 * (marked asm (payloads.take k) ++ hexstringToBinary asm).length := by
    rw [List.length_append, hbefore, codedStart]
  have hbetween : _ = serial genPolyC1 genPolyC2 _ _ :=
    serial_between (marked asm (payloads.take k) ++ hexstringToBinary asm) payloads[k]
      (marked asm (payloads.drop (k + 1)))
  rw [← marked_split hk, ← hstart, hframe, htail, ofBytes_append, List.reverse_append] at hbetween
  exact hbetween

variable {R Other : Type} [Arithmetic R] {exp : R → R}

/-- The soft bits of a frame as they arrive: as many as the decoder asks for, or whole bytes of
them, and few of them weak. -/
structure Received (exp : R → R) (margin errors size : Nat) (sent : List Bool)
    (values : List R) : Prop where
  length : values.length = 2 * (8 * size + 6) ∨
    2 * (8 * size + 6) ≤ values.length ∧ values.length % 8 = 0
  few : weak margin sent (values.map (mapToUInt8 exp)) ≤ errors

theorem blockNumBitsIn_make {size : Nat} (hsmall : 2 * (8 * size + 6) < size32) :
    (Decoder.make .none (8 * size) asm).blockNumBitsIn = 2 * (8 * size + 6) := by
  change getNumInputsReq .none (2 * (8 * size + 6) % size32) = _
  rw [getNumInputsReq_none, Nat.mod_eq_of_lt hsmall]

/-- Without puncturing the decoder gets the first soft bits as they are. -/
theorem processMessage_eq {size : Nat} (hsmall : 2 * (8 * size + 6) < size32)
    (header : Header Other) {values : List R} (hlength : values.length = 2 * (8 * size + 6) ∨
      2 * (8 * size + 6) ≤ values.length ∧ values.length % 8 = 0) :
    (Decoder.make .none (8 * size) asm).processMessage exp viterbi
        (.pair (some header) (.f32vector values)) =
      some (.pair (some header) (.blob (viterbi (getStartState asm)
        ((values.map (mapToUInt8 exp)).take (2 * (8 * size + 6))) (8 * size + 6) (8 * size)
        (getTermState asm)))) := by
  have hunpunc : (Decoder.make .none (8 * size) asm).blockNumBitsInUnpunc =
      2 * (8 * size + 6) := Nat.mod_eq_of_lt hsmall
  have hreceive : (Decoder.make .none (8 * size) asm).receive
      (.pair (some header) (.f32vector values)) = some (header, values) := by
    have hout : (Decoder.make .none (8 * size) asm).blockNumBitsOut % 8 = 0 :=
      Nat.mul_mod_right 8 size
    have haccepted : values.length = 2 * (8 * size + 6) ∨
        values.length = divideFloor values.length 8 * 8 := by
      rw [divideFloor]
      omega
    rw [Decoder.receive, blockNumBitsIn_make hsmall, if_pos haccepted, if_neg (not_not_intro hout)]
  have hsymbols : (unpunctureAndConvert exp .none values (2 * (8 * size + 6))).1 =
      (values.map (mapToUInt8 exp)).take (2 * (8 * size + 6)) := by
    apply List.ext_getElem
    · simp [unpunctureAndConvert]
      omega
    · intro i hi hi'
      rw [List.length_take, List.length_map] at hi'
      have hvalue : i < values.length := by omega
      simp [unpunctureAndConvert, List.getElem?_eq_getElem hvalue]
  rw [Decoder.processMessage, hreceive]
  · simp only [Option.map_some, hunpunc]
    rw [← hsymbols]
    rfl
  · intro heof
    cases heof

/-- Vectors of any other length are dropped. -/
theorem processMessage_eq_none {size : Nat} (hsmall : 2 * (8 * size + 6) < size32)
    (header : Header Other) {values : List R} (hlength : values.length ≠ 2 * (8 * size + 6))
    (hbytes : values.length % 8 ≠ 0) :
    (Decoder.make .none (8 * size) asm).processMessage exp viterbi
        (.pair (some header) (.f32vector values)) = none := by
  rw [← Option.not_isSome_iff_eq_none, Decoder.processMessage_pair, Decoder.receive,
    blockNumBitsIn_make hsmall, if_neg]
  · simp
  · rw [divideFloor]
    omega

/-- The output of the encoder is the begin of the coded stream. -/
theorem runCalls_prefix (calls : List Call) {stream bytes : List UInt8}
    (hstream : stream <+: bytes) :
    ofBytes (runCalls (.make genPolyC1 genPolyC2 .none) calls .initial stream).out <+:
      serial genPolyC1 genPolyC2 [] (ofBytes bytes) := by
  obtain ⟨worked, hworked, hstreams⟩ := streams_maintained.runCalls
    (streams_initial genPolyC1 genPolyC2 .none) calls stream
  have hcoded := hstreams.stream
  rw [List.nil_append, List.nil_append, coded, getPattern,
    ConvolutionalCode.puncture_singleton_true] at hcoded
  obtain ⟨rest, rfl⟩ := hstream
  rw [hworked]
  refine List.IsPrefix.trans ⟨_, hcoded⟩ ?_
  conv_rhs => rw [← List.take_append_drop worked.numIn stream, List.append_assoc, ofBytes_append,
    serial_append]
  exact List.prefix_append _ _

/-- The coded bits of a frame that has been output are those of the whole stream. -/
theorem codedFrame_of_isBegin {out stream : List Bool} (hout : out <+: stream) {size k : Nat}
    (hlength : codedStart asm size k + 2 * (8 * size + 6) ≤ out.length) :
    codedFrame asm size k out = codedFrame asm size k stream := by
  obtain ⟨rest, rfl⟩ := hout
  rw [codedFrame, codedFrame, List.drop_append_of_le_length (by omega),
    List.take_append_of_le_length (by rw [List.length_drop]; omega)]

theorem Received.of_runCalls (heven : asm.length % 2 = 0) (hpos : asm.length ≠ 0)
    {payloads : List (List UInt8)} {size : Nat}
    (hsize : ∀ payload ∈ payloads, payload.length = size) {stream : List UInt8}
    (hstream : stream <+: marked asm payloads) (calls : List Call) {k : Nat}
    {payload : List UInt8} (hpayload : payloads[k]? = some payload)
    (hout : codedStart asm size k + 2 * (8 * size + 6) ≤
      8 * (runCalls (.make genPolyC1 genPolyC2 .none) calls .initial stream).out.length)
    {values : List R} (hreceived : Received exp margin errors size (codedFrame asm size k
      (ofBytes (runCalls (.make genPolyC1 genPolyC2 .none) calls .initial stream).out)) values) :
    Received exp margin errors size (serial genPolyC1 genPolyC2
      ((ofBytes (hexstringToBinary asm)).reverse ++
        (ofBytes (marked asm (payloads.take k))).reverse) (pathBits asm payload)) values := by
  have hbegin : _ <+: serial genPolyC1 genPolyC2 [] (ofBytes (marked asm payloads)) :=
    runCalls_prefix calls hstream
  rw [← length_ofBytes] at hout
  have hall := hbegin.length_le
  rw [length_serial, length_ofBytes (marked _ _)] at hall
  rwa [codedFrame_of_isBegin hbegin hout, codedFrame_serial heven hpos hsize hpayload (by omega)]
    at hreceived

/-- A code and a decoder that corrects some weak symbols. -/
structure Corrects (genPolyC1 genPolyC2 : BitVec 8) (viterbi : Viterbi) (margin errors : Nat) :
    Prop where
  tapsC1 : genPolyC1 &&& 0x7F#8 ≠ 0#8
  tapsC2 : genPolyC2 &&& 0x7F#8 ≠ 0#8
  nearest : ∃ bias inside outside,
    Nearest [convertPoly genPolyC1, convertPoly genPolyC2] bias viterbi ∧
    (Trellis.differences [convertPoly genPolyC1, convertPoly genPolyC2]).Separates inside outside ∧
    (margin + 255) * errors < margin * inside ∧ (margin + 255) * errors < margin * outside + bias

section Sent

variable (hcorrects : Corrects genPolyC1 genPolyC2 viterbi margin errors)
  (heven : asm.length % 2 = 0) (hpos : asm.length ≠ 0)

include hcorrects heven hpos

omit hcorrects in
theorem length_pathBits (payload : List UInt8) :
    (pathBits asm payload).length = 8 * payload.length + 6 := by
  obtain ⟨-, hne⟩ := hexstringToBinary_ne_nil heven hpos
  have := List.length_pos_iff.mpr hne
  rw [pathBits, List.length_append, List.length_take, length_ofBytes, length_ofBytes]
  omega

omit hcorrects in
/-- The path of a frame begins and ends in the states that the decoder has from the ASM. -/
theorem run_pathBits (htapsC1 : genPolyC1 &&& 0x7F#8 ≠ 0#8)
    (htapsC2 : genPolyC2 &&& 0x7F#8 ≠ 0#8) (past : List Bool) (payload : List UInt8) :
    getStartState asm < 64 ∧
      Trellis.run [convertPoly genPolyC1, convertPoly genPolyC2] (getStartState asm)
          (pathBits asm payload) =
        (serial genPolyC1 genPolyC2 ((ofBytes (hexstringToBinary asm)).reverse ++ past)
          (pathBits asm payload), getTermState asm) := by
  have hstart := holds_getStartState heven hpos past
  obtain ⟨houtputs, hfinal⟩ := hstart.run htapsC1 htapsC2 (pathBits asm payload)
  have hterm := holds_getTermState heven hpos
    ((ofBytes payload).reverse ++ ((ofBytes (hexstringToBinary asm)).reverse ++ past))
  rw [← List.append_assoc, ← List.reverse_append] at hterm
  exact ⟨hstart.lt, Prod.ext houtputs (hfinal.unique hterm)⟩

/-- Whatever the soft bits are, the decoder puts out as many bytes as a frame has. -/
theorem length_viterbi {size : Nat} {symbols : List UInt8}
    (hsymbols : symbols.length = 2 * (8 * size + 6)) :
    (viterbi (getStartState asm) symbols (8 * size + 6) (8 * size) (getTermState asm)).length =
      size := by
  obtain ⟨bias, -, -, hnearest, -⟩ := hcorrects.nearest
  obtain ⟨hlt, hrun⟩ := run_pathBits heven hpos hcorrects.tapsC1 hcorrects.tapsC2 []
    (List.replicate size 0)
  have hbits := length_pathBits heven hpos (List.replicate size 0)
  rw [List.length_replicate] at hbits
  obtain ⟨s, bits, hpath, hresult, -⟩ := hnearest (getStartState asm) symbols (8 * size)
    (getTermState asm) (Nat.mul_mod_right 8 size) hsymbols
    ⟨_, _, hlt, hbits, congrArg Prod.snd hrun⟩
  have hlength := congrArg List.length hresult
  rw [length_ofBytes, List.length_take, hpath.length] at hlength
  omega

/-- Soft bits that are not too short are dropped or decoded to some bytes. -/
theorem processMessage_cases {size : Nat} (hsmall : 2 * (8 * size + 6) < size32)
    (header : Header Other) {values : List R}
    (hlong : values.length % 8 = 0 → 2 * (8 * size + 6) ≤ values.length) :
    (Decoder.make .none (8 * size) asm).processMessage exp viterbi
        (.pair (some header) (.f32vector values)) = none ∨
      ∃ bytes, (Decoder.make .none (8 * size) asm).processMessage exp viterbi
          (.pair (some header) (.f32vector values)) = some (.pair (some header) (.blob bytes)) ∧
        bytes.length = size := by
  by_cases hread : values.length = 2 * (8 * size + 6) ∨
      2 * (8 * size + 6) ≤ values.length ∧ values.length % 8 = 0
  · right
    refine ⟨_, processMessage_eq hsmall header hread, length_viterbi hcorrects heven hpos ?_⟩
    rw [List.length_take, List.length_map, Nat.min_eq_left (hread.elim Eq.ge And.left)]
  · obtain ⟨hlength, hdropped⟩ := not_or.mp hread
    exact .inl (processMessage_eq_none hsmall header hlength fun hbytes =>
      hdropped ⟨hlong hbytes, hbytes⟩)

theorem processMessage_received (past : List Bool) {payload : List UInt8}
    (hsmall : 2 * (8 * payload.length + 6) < size32) (header : Header Other) {values : List R}
    (hreceived : Received exp margin errors payload.length
      (serial genPolyC1 genPolyC2 ((ofBytes (hexstringToBinary asm)).reverse ++ past)
        (pathBits asm payload)) values) :
    (Decoder.make .none (8 * payload.length) asm).processMessage exp viterbi
        (.pair (some header) (.f32vector values)) =
      some (.pair (some header) (.blob payload)) := by
  obtain ⟨hlt, hrun⟩ := run_pathBits heven hpos hcorrects.tapsC1 hcorrects.tapsC2 past payload
  obtain ⟨bias, inside, outside, hnearest, hseparates, hinside, houtside⟩ := hcorrects.nearest
  have hbits := length_pathBits heven hpos payload
  have hsent := congrArg Prod.fst hrun
  have hlength : 2 * (8 * payload.length + 6) ≤ values.length :=
    hreceived.length.elim Eq.ge And.left
  have hsymbols : ((values.map (mapToUInt8 exp)).take (2 * (8 * payload.length + 6))).length =
      2 * (8 * payload.length + 6) := by
    rw [List.length_take, List.length_map, Nat.min_eq_left hlength]
  have hfew : weak margin (Trellis.run [convertPoly genPolyC1, convertPoly genPolyC2]
      (getStartState asm) (pathBits asm payload)).1
        ((values.map (mapToUInt8 exp)).take (2 * (8 * payload.length + 6))) ≤ errors := by
    rw [hsent, ← hbits, ← length_serial, weak_take]
    exact hreceived.few
  have hdecoded := hnearest.decodes hseparates hinside houtside hlt hbits
    (Nat.mul_mod_right 8 payload.length) hsymbols hfew
  rw [hrun] at hdecoded
  have hpayload : (pathBits asm payload).take (8 * payload.length) = ofBytes payload := by
    rw [pathBits, ← length_ofBytes, List.take_left]
  rw [processMessage_eq hsmall header hreceived.length, ofBytes_injective (hdecoded.trans hpayload)]

/-- In every run of the encoder over frames behind their ASMs, as far as these have come, the
decoder makes out of the soft bits of each frame whose coded bits have been output the bytes of
the frame. -/
theorem frames_decoded {payloads : List (List UInt8)} {size : Nat}
    (hsize : ∀ payload ∈ payloads, payload.length = size) (hsmall : 2 * (8 * size + 6) < size32)
    {stream : List UInt8} (hstream : stream <+: marked asm payloads) (calls : List Call)
    {k : Nat} {payload : List UInt8} (hpayload : payloads[k]? = some payload)
    (hout : codedStart asm size k + 2 * (8 * size + 6) ≤
      8 * (runCalls (.make genPolyC1 genPolyC2 .none) calls .initial stream).out.length)
    (header : Header Other) {values : List R}
    (hreceived : Received exp margin errors size (codedFrame asm size k
      (ofBytes (runCalls (.make genPolyC1 genPolyC2 .none) calls .initial stream).out)) values) :
    (Decoder.make .none (8 * size) asm).processMessage exp viterbi
        (.pair (some header) (.f32vector values)) =
      some (.pair (some header) (.blob payload)) := by
  have hpath := hreceived.of_runCalls heven hpos hsize hstream calls hpayload hout
  obtain rfl := hsize payload (List.mem_of_getElem? hpayload)
  exact processMessage_received hcorrects heven hpos _ hsmall header hpath

end Sent

end Frames

section Search

def allBits : Nat → List (List Bool)
  | 0 => [[]]
  | n + 1 => (allBits n).flatMap fun bits => [false :: bits, true :: bits]

theorem mem_allBits {n : Nat} {bits : List Bool} : bits ∈ allBits n ↔ bits.length = n := by
  induction n generalizing bits with
  | zero => simp [allBits]
  | succ n ih =>
      cases bits with
      | nil => simp [allBits]
      | cons bit rest => cases bit <;> simp [allBits, ih]

/-- All paths to a state. -/
def allPaths (polys : List Int) (numSteps termState : Nat) : List (Nat × List Bool) :=
  (List.range 64).flatMap fun s =>
    ((allBits numSteps).filter fun bits => (Trellis.run polys s bits).2 = termState).map (s, ·)

theorem mem_allPaths {polys : List Int} {numSteps termState s : Nat} {bits : List Bool} :
    (s, bits) ∈ allPaths polys numSteps termState ↔ Path polys numSteps termState s bits := by
  simp only [allPaths, List.mem_flatMap, List.mem_range, List.mem_map, List.mem_filter,
    mem_allBits, decide_eq_true_eq, Prod.mk.injEq]
  constructor
  · rintro ⟨_, hlt, _, ⟨hlength, hfinal⟩, rfl, rfl⟩
    exact ⟨hlt, hlength, hfinal⟩
  · exact fun hpath => ⟨s, hpath.lt, bits, ⟨hpath.length, hpath.final⟩, rfl, rfl⟩

/-- A decoder that tries all paths. -/
def exhaustive (polys : List Int) (bias : Nat) : Viterbi :=
  fun startState symbols numSteps numBits termState =>
    match (allPaths polys numSteps termState).argmin
        fun path => pathCost polys bias startState symbols path.1 path.2 with
    | some path => toBytes (path.2.take numBits)
    | none => []

theorem nearest_exhaustive (polys : List Int) (bias : Nat) :
    Nearest polys bias (exhaustive polys bias) := by
  rintro startState symbols numBits termState hbyte - ⟨s, bits, hpath⟩
  have hmem := mem_allPaths.mpr hpath
  cases hbest : (allPaths polys (numBits + 6) termState).argmin
      fun path => pathCost polys bias startState symbols path.1 path.2 with
  | none => rw [List.argmin_eq_none.mp hbest] at hmem; cases hmem
  | some path =>
      have hpaths := mem_allPaths.mp (List.argmin_mem hbest)
      refine ⟨path.1, path.2, hpaths, ?_, fun other others hother =>
        List.le_of_mem_argmin (mem_allPaths.mpr hother) hbest⟩
      have hdvd : 8 ∣ (path.2.take numBits).length := by
        rw [List.length_take, hpaths.length, Nat.min_eq_left (Nat.le_add_right _ _)]
        exact Nat.dvd_of_mod_eq_zero hbyte
      rw [exhaustive, hbest]
      exact ofBytes_toBytes hdvd

end Search

section Standard

open scoped ExactNumbers

/-- The distances of the code of the CCSDS standard. -/
theorem separates_standard :
    (Trellis.differences [convertPoly 0x79#8, convertPoly 0xDB#8]).Separates 10 5 :=
  Machine.separates_of_rounds (by decide) (by decide +kernel : 10 ≤ Machine.leaving _ 25)
    (by decide +kernel)

theorem corrects_standard : Corrects 0x79#8 0xDB#8
    (exhaustive [convertPoly 0x79#8, convertPoly 0xDB#8] 63) 255 2 where
  tapsC1 := by decide
  tapsC2 := by decide
  nearest := ⟨63, 10, 5, nearest_exhaustive _ 63, separates_standard, by decide, by decide⟩

/-- The exponential function where it is saturated. -/
def saturatedExp (x : ℚ) : ℚ := if x ≤ -1000 then 0 else 1

/-- The soft bits of the first of two frames, two of them with the wrong sign. -/
def twoWrong : List ℚ :=
  [false, true, false, true, true, true, false, false, false, false, true, true, false, true,
    false, true, false, true, true, true, false, false, true, true, true, true, false, false].map
    fun bit => if bit then 1000 else -1000

theorem frames_decoded_standard :
    (Decoder.make .none (8 * 1) "1ACFFC1D").processMessage saturatedExp
        (exhaustive [convertPoly 0x79#8, convertPoly 0xDB#8] 63)
        (.pair (some []) (.f32vector twoWrong) : Message Unit ℚ) =
      some (.pair (some []) (.blob [0x2A])) := by
  have hsize : ∀ payload ∈ ([[0x2A], [0x2A]] : List (List UInt8)), payload.length = 1 := by decide
  refine frames_decoded corrects_standard (by decide +kernel) (by decide +kernel) hsize (by decide)
    (List.prefix_refl _) [⟨20, 10⟩] (k := 0) rfl (by decide +kernel) [] ?_
  exact ⟨.inl (by decide), by decide +kernel⟩

end Standard

end GrCcsds.ConvDecode
