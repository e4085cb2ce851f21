import GrCcsds.ConvDecode.Correction
import GrCcsds.ConvEncode.Forecast
import GrCcsds.MessageChain.Framings
import GrCcsds.MessageChain.Transfer

/-! # Frames through the concatenated code

Behind the transmitter of messages a source makes a stream of bytes of them, and
the convolutional encoder a stream of coded bits. The receiver gets the soft bits
of one frame after the other, and runs them through both decoders.
-/

namespace GrCcsds.MessageChain

open Utils Messages
open Foundation Foundation.Bits Foundation.Pipeline
open ConvEncode (Call runCalls)
open ConvDecode (Decoder Viterbi Corrects Received codedStart codedFrame hexstringToBinary)

variable {Other R : Type} [DecidableEq Other] [Arithmetic R] (unsigned : Other → Option UInt64)
  {fec : ReedSolomon.Fec} {depth : Nat} (c : Randomiser.Config)

section Decoders

variable (exp : R → R) (viterbi : Viterbi)

/-- `conv_decode27`, for messages of soft bits that it drops or finds long enough. -/
def convDecode (d : Decoder) : Component (Message Other R) where
  State := Unit
  initial := ()
  Handles _ msg _ out := out = (d.processMessage exp viterbi msg).toList
  Accepts msg := ∃ header values, msg = Converters.softMessage header values ∧
    (d.processMessage exp viterbi msg = none ∨ d.Reads exp values)
  Inv _ := True
  output msg := (d.processMessage exp viterbi msg).toList
  inv_initial := trivial
  returns := fun _ _ => ⟨(), rfl⟩
  handled := fun _ _ hout => ⟨hout, trivial⟩

variable (hdepth : 0 < depth) (hsize : 255 * depth * depth < size32)

/-- The receiver behind a decoder for the frames between the ASMs. -/
def concatenatedReceiver (fec : ReedSolomon.Fec) (buffers : ReedSolomon.DecodeBuffers)
    (asm : String) : List (Component (Message Other R)) :=
  [convDecode exp viterbi (.make .none (8 * (255 * depth)) asm), randomiser c,
    rsDecode unsigned fec hdepth hsize buffers]

/-- The header and the soft bits of a message that the receiver can handle, whatever they are. -/
structure Readable (size : Nat) (header : Header Other) (values : List R) : Prop where
  frameNumber : frameNumber unsigned header ≠ .wrongType
  long : values.length % 8 = 0 → 2 * (8 * size + 6) ≤ values.length

variable {exp viterbi} (buffers : ReedSolomon.DecodeBuffers) {genPolyC1 genPolyC2 : BitVec 8}
  {margin errors : Nat} {asm : String}

omit [DecidableEq Other] [Arithmetic R] in
theorem length_payload {frame : List UInt8} : (payload c fec depth frame).length = 255 * depth := by
  rw [payload, Randomiser.Hard.length_randomised, ReedSolomon.length_encoded]

omit [Arithmetic R] in
/-- A block without wrong bytes. -/
theorem decodable_payload {header : Header Other} {frame : List UInt8}
    (hframe : frame.length = 223 * depth)
    (hnumber : frameNumber unsigned header ≠ .wrongType) :
    Decodable fec depth unsigned header
      (Randomiser.Hard.randomised c (payload c fec depth frame)) frame := by
  refine ⟨hnumber, ?_, hframe, fun row _ => ?_⟩
  · rw [Randomiser.Hard.length_randomised, payload, Randomiser.Hard.length_randomised,
      ReedSolomon.length_encoded]
  · have hlength : (payload c fec depth frame).length =
        (ReedSolomon.encoded fec depth frame).length := Randomiser.Hard.length_randomised
    rw [wrongInClass_randomised c hlength]
    simp [ReedSolomon.wrongInClass, payload]

/-- What the receiver makes of the bytes that the first decoder puts out. -/
theorem through_of_some {header : Header Other} {values : List R} {bytes : List UInt8}
    (hdecoded : (Decoder.make .none (8 * (255 * depth)) asm).processMessage exp viterbi
      (Converters.softMessage header values) = some (blobMessage header bytes)) :
    through (concatenatedReceiver unsigned c exp viterbi hdepth hsize fec buffers asm)
        (Converters.softMessage header values) =
      decoded fec depth (blobMessage header (Randomiser.Hard.randomised c bytes)) := by
  have hout : (convDecode exp viterbi (.make .none (8 * (255 * depth)) asm)).output
      (Converters.softMessage header values : Message Other R) = [blobMessage header bytes] :=
    congrArg Option.toList hdecoded
  rw [concatenatedReceiver, through, hout, List.flatMap_singleton]
  change (decoded fec depth (blobMessage header _)).flatMap (fun msg => [msg]) ++ [] = _
  rw [List.append_nil, List.flatMap_singleton']

section Readable

variable (hcorrects : Corrects genPolyC1 genPolyC2 viterbi margin errors)
  (heven : asm.length % 2 = 0) (hpos : asm.length ≠ 0)
  (hsmall : 2 * (8 * (255 * depth) + 6) < size32)

include hcorrects heven hpos hsmall

/-- Every message that can be read becomes at most one message. -/
theorem concatenatedReceiver_readable {header : Header Other} {values : List R}
    (hreadable : Readable unsigned (255 * depth) header values) :
    Fits (concatenatedReceiver unsigned c exp viterbi hdepth hsize fec buffers asm)
        (Converters.softMessage header values) ∧
      (through (concatenatedReceiver unsigned c exp viterbi hdepth hsize fec buffers asm)
        (Converters.softMessage header values)).length ≤ 1 := by
  rcases ConvDecode.processMessage_cases hcorrects heven hpos hsmall header hreadable.long with
    hdropped | ⟨bytes, hdecoded, hbytes⟩
  · have hout : (convDecode exp viterbi (.make .none (8 * (255 * depth)) asm)).output
        (Converters.softMessage header values : Message Other R) = [] :=
      congrArg Option.toList hdropped
    refine ⟨⟨⟨header, values, rfl, .inl hdropped⟩, ?_⟩, ?_⟩
    · rw [hout]
      exact fun _ hmem => absurd hmem List.not_mem_nil
    · rw [concatenatedReceiver, through, hout]
      exact Nat.zero_le 1
  · have hout : (convDecode exp viterbi (.make .none (8 * (255 * depth)) asm)).output
        (Converters.softMessage header values : Message Other R) = [blobMessage header bytes] :=
      congrArg Option.toList hdecoded
    refine ⟨⟨⟨header, values, rfl, ?_⟩, ?_⟩, ?_⟩
    · by_cases hlong : 2 * (8 * (255 * depth) + 6) ≤ values.length
      · right
        rw [ConvDecode.Decoder.reads_iff]
        change ConvDecode.getNumInputsReq .none (2 * (8 * (255 * depth) + 6) % size32) ≤ _
        rwa [ConvDecode.getNumInputsReq_none, Nat.mod_eq_of_lt hsmall]
      · exact .inl (ConvDecode.processMessage_eq_none hsmall header (by omega)
          fun hwhole => hlong (hreadable.long hwhole))
    · rw [hout]
      intro blob hmem
      obtain rfl := List.mem_singleton.mp hmem
      refine ⟨⟨_, blockLen_lt hdepth hsize, header, _, rfl, hbytes⟩, ?_⟩
      intro randomised hmem
      obtain rfl := List.mem_singleton.mp hmem
      refine ⟨⟨header, _, rfl, ?_, hreadable.frameNumber⟩, fun _ _ => trivial⟩
      rw [Randomiser.Hard.length_randomised, hbytes]
    · rw [through_of_some unsigned c hdepth hsize buffers hdecoded, blobMessage, decoded,
        List.length_map]
      exact Option.length_toList_le

end Readable

end Decoders

/-- Soft bits of a frame of which all coded bits have been output, and those of the tail behind
it. -/
structure Arrives (exp : R → R) (margin errors : Nat) (asm : String) (size k : Nat)
    (out : List UInt8) (values : List R) : Prop where
  complete : codedStart asm size k + 2 * (8 * size + 6) ≤ 8 * out.length
  received : Received exp margin errors size (codedFrame asm size k (ofBytes out)) values

section Transfer

variable {exp : R → R} {viterbi : Viterbi} {genPolyC1 genPolyC2 : BitVec 8} {margin errors : Nat}
  (hcorrects : Corrects genPolyC1 genPolyC2 viterbi margin errors)
  (hfec : fec.CorrectsSixteen) (hdepth : 0 < depth) (hsize : 255 * depth * depth < size32)
  (hsmall : 2 * (8 * (255 * depth) + 6) < size32)
  {cfg : AddAsm.Config} (hvalid : cfg.Valid) (hlen : cfg.frameLen = 255 * depth)
  (heven : cfg.asm.length % 2 = 0) (hpos : cfg.asm.length ≠ 0)
  (encodeBuffers : ReedSolomon.EncodeBuffers) (decodeBuffers : ReedSolomon.DecodeBuffers)

include hcorrects hfec hsmall heven hpos

/-- The receiver on the soft bits of a frame of a stream that the encoder has got a part of. -/
theorem concatenatedReceiver_arrives {payloads : List (List UInt8)}
    (hsizes : ∀ bytes ∈ payloads, bytes.length = 255 * depth) {stream : List UInt8}
    (hstream : stream <+: ConvDecode.marked cfg.asm payloads) (calls : List Call) {k : Nat}
    {frame : List UInt8} (hframe : frame.length = 223 * depth)
    (hpayload : payloads[k]? = some (payload c fec depth frame)) {header : Header Other}
    (hnumber : frameNumber unsigned header ≠ .wrongType) {values : List R}
    (harrives : Arrives exp margin errors cfg.asm (255 * depth) k
      (runCalls (.make genPolyC1 genPolyC2 .none) calls .initial stream).out values) :
    through (concatenatedReceiver unsigned c exp viterbi hdepth hsize fec decodeBuffers cfg.asm)
      (Converters.softMessage header values) = [blobMessage header frame] := by
  have hpath := harrives.received.of_runCalls heven hpos hsizes hstream calls hpayload
    harrives.complete
  have hlength : (payload c fec depth frame).length = 255 * depth :=
    hsizes _ (List.mem_of_getElem? hpayload)
  rw [← hlength] at hpath hsmall
  have hdecoded := ConvDecode.processMessage_received hcorrects heven hpos _ hsmall header hpath
  rw [hlength] at hdecoded
  rw [through_of_some unsigned c hdepth hsize decodeBuffers hdecoded]
  exact decoded_eq unsigned hfec hdepth (decodable_payload unsigned c hframe hnumber)

include hlen

/-- In every run of the transmitter, of the source behind it, of the convolutional encoder, and of
the receiver on any messages of soft bits that it can handle, the receiver delivers at most one
message for each, in their order, and for soft bits of a frame of which few are weak it delivers
this frame, whatever the other messages are. -/
theorem frames_concatenated {frames : List (Frame Other)}
    (hframes : ∀ f ∈ frames, f.2.length = 223 * depth) {tx rx : Network (Message Other R)}
    (htx : Relation.ReflTransGen Network.Step
      (.start (transmitter unsigned c hdepth hsize fec hvalid encodeBuffers)) tx)
    (hsent : tx.arrived = frames.map fun f => blobMessage f.1 f.2) (tag : String)
    {events : List (Event Other R)} {source : BlobSource.Session Other}
    (hdelivered : events.filterMap Event.delivered <+: tx.out)
    (hsource : Transition.run (BlobSource.Session.step ⟨cfg.asmLen + 255 * depth, tag⟩) .initial
      events = some source)
    (calls : List Call) {received : List (Header Other × List R)}
    (hreadable : ∀ r ∈ received, Readable unsigned (255 * depth) r.1 r.2)
    (hrx : Relation.ReflTransGen Network.Step
      (.start (concatenatedReceiver unsigned c exp viterbi hdepth hsize fec decodeBuffers cfg.asm))
        rx)
    (hreceived : rx.arrived = received.map fun r => Converters.softMessage r.1 r.2) :
    ∃ delivered : List (List (Message Other R)), rx.Delivers delivered.flatten ∧
      List.Forall₂ (fun (r : Header Other × List R) messages => messages.length ≤ 1 ∧
        ∀ k, Arrives exp margin errors cfg.asm (255 * depth) k
            (runCalls (.make genPolyC1 genPolyC2 .none) calls .initial source.plain.out).out r.2 →
          ∃ f, frames[k]? = some f ∧ messages = [blobMessage r.1 f.2]) received delivered := by
  have htransmitted := transmitter_delivers unsigned c hdepth hsize hvalid hlen encodeBuffers
    hframes htx hsent
  have hblocks : ∀ f ∈ frames.map fun f => (f.1, cfg.asmBytes ++ payload c fec depth f.2),
      f.2.length = cfg.asmLen + 255 * depth := by
    intro f hf
    obtain ⟨g, -, rfl⟩ := List.mem_map.mp hf
    rw [List.length_append, hvalid.asm, length_payload]
  have hstream : source.plain.out <+:
      ConvDecode.marked cfg.asm (frames.map fun f => payload c fec depth f.2) := by
    have hmessages : tx.out <+: messages
        (frames.map fun f => (f.1, cfg.asmBytes ++ payload c fec depth f.2)) := by
      rw [messages, List.map_map]
      exact htransmitted.begins
    have hout := source_out_prefix hblocks (hdelivered.trans hmessages) hsource
    rw [List.flatMap_map] at hout
    rw [ConvDecode.marked, List.flatMap_map]
    exact hout
  have hsizes : ∀ bytes ∈ frames.map fun f => payload c fec depth f.2,
      bytes.length = 255 * depth := by
    intro bytes hbytes
    obtain ⟨f, -, rfl⟩ := List.mem_map.mp hbytes
    exact length_payload c
  have hhandled : ∀ r ∈ received,
      Fits (concatenatedReceiver unsigned c exp viterbi hdepth hsize fec decodeBuffers cfg.asm)
          (Converters.softMessage r.1 r.2) ∧
        (through (concatenatedReceiver unsigned c exp viterbi hdepth hsize fec decodeBuffers
          cfg.asm) (Converters.softMessage r.1 r.2)).length ≤ 1 := fun r hr =>
    concatenatedReceiver_readable unsigned c hdepth hsize decodeBuffers hcorrects heven hpos hsmall
      (hreadable r hr)
  refine ⟨_, Network.delivers_of_items hrx hreceived fun r hr => (hhandled r hr).1, ?_⟩
  rw [List.forall₂_map_right_iff, List.forall₂_same]
  intro r hr
  refine ⟨(hhandled r hr).2, fun k harrived => ?_⟩
  -- only frames have coded bits
  have hk : k < frames.length := by
    have hbegin : _ <+: ConvEncode.serial genPolyC1 genPolyC2 [] _ :=
      ConvDecode.runCalls_prefix calls hstream
    have hall := hbegin.length_le
    have hcomplete := harrived.complete
    rw [length_ofBytes, ConvEncode.length_serial, length_ofBytes,
      ConvDecode.length_marked hsizes, List.length_map] at hall
    rw [codedStart] at hcomplete
    by_contra hmore
    have hframes := Nat.mul_le_mul_right
      ((hexstringToBinary cfg.asm).length + 255 * depth) (Nat.le_of_not_lt hmore)
    omega
  have hpayload : (frames.map fun f => payload c fec depth f.2)[k]? =
      some (payload c fec depth frames[k].2) := by
    rw [List.getElem?_map, List.getElem?_eq_getElem hk, Option.map_some]
  exact ⟨frames[k], List.getElem?_eq_getElem hk,
    concatenatedReceiver_arrives unsigned c hcorrects hfec hdepth hsize hsmall heven hpos
      decodeBuffers hsizes hstream calls (hframes _ (List.getElem_mem hk)) hpayload
      (hreadable r hr).frameNumber harrived⟩

end Transfer

section Example

open scoped ExactNumbers

/-- A call that may output two bytes for each byte of its input. -/
theorem length_out_of_call (genPolyC1 genPolyC2 : BitVec 8) (stream : List UInt8) :
    16 * stream.length ≤ 8 * (runCalls (.make genPolyC1 genPolyC2 .none)
      [⟨2 * stream.length, stream.length⟩] .initial stream).out.length + 15 := by
  obtain ⟨worked, hworked, hstreams⟩ := ConvEncode.streams_maintained.runCalls
    (ConvEncode.streams_initial genPolyC1 genPolyC2 .none) [⟨2 * stream.length, stream.length⟩]
    stream
  rw [hworked]
  have hends : worked.numIn = stream.length ∨ worked.out.length = 2 * stream.length := by
    have hcall := ConvEncode.workLoop_ends (.make genPolyC1 genPolyC2 .none) stream
      (2 * stream.length) .initial
    rw [← hworked, runCalls, runCalls, ConvEncode.generalWork, if_neg (by decide),
      List.take_length]
    simpa using hcall
  rcases hends with hall | hfull
  · have hlength := hstreams.length
    have hcount := hstreams.count_lt
    rw [List.nil_append, List.nil_append, ConvEncode.coded, ConvEncode.getPattern,
      ConvolutionalCode.puncture_singleton_true, ConvEncode.length_serial, length_ofBytes, hall,
      List.take_length] at hlength
    omega
  · omega

omit [DecidableEq Other] [Arithmetic R] in
/-- A source that gets some messages and then has space for all of them. -/
theorem exists_source {c : BlobConfig} {frames : List (Frame Other)}
    (hframes : ∀ f ∈ frames, f.2.length = c.blobLen) : ∃ (events : List (Event Other R))
      (source : BlobSource.Session Other), events.filterMap Event.delivered = messages frames ∧
      Transition.run (BlobSource.Session.step c) .initial events = some source ∧
      source.plain.out = frames.flatMap Prod.snd := by
  obtain ⟨s, hrun, hreproduces⟩ :=
    blob_reproduces c ((messages frames : List (Message Other R)).map Event.message)
  have hdelivered : ((messages frames : List (Message Other R)).map Event.message).filterMap
      Event.delivered = messages frames := by
    rw [List.filterMap_map]
    exact List.filterMap_some
  rw [hdelivered, accepted_messages hframes] at hreproduces
  obtain ⟨next, hnext, hout⟩ := hreproduces.drained _ le_rfl
  obtain ⟨last, hlast, rfl⟩ := Option.map_eq_some_iff.mp hnext
  refine ⟨(messages frames).map Event.message ++ [.work s.plain.source.queue.length], last, ?_,
    ?_, hout⟩
  · rw [List.filterMap_append, hdelivered]
    exact List.append_nil _
  · rw [Transition.run_append, hrun, Option.bind_some, Transition.run, hlast]
    rfl

/-- Soft bits as strong as they can be. -/
def saturated (bits : List Bool) : List ℚ := bits.map fun bit => if bit then 1000 else -1000

theorem received_saturated {size : Nat} {bits : List Bool}
    (hlength : bits.length = 2 * (8 * size + 6)) :
    Received ConvDecode.saturatedExp 255 2 size bits (saturated bits) where
  length := .inl (by rw [saturated, List.length_map, hlength])
  few := by
    have hbit : ∀ bit : Bool, (decide (255 < 2 * FreeDistance.symbolCost bit
        (Softbits.mapToUInt8 ConvDecode.saturatedExp (if bit then (1000 : ℚ) else -1000)) +
          255)).toNat = 0 := by decide +kernel
    rw [FreeDistance.weak, saturated, List.map_map, List.zipWith_map_right, List.zipWith_self]
    simp only [Function.comp_apply, hbit]
    simp

/-- Two frames of zeros, of which the first one is delivered behind soft bits that say nothing. -/
theorem frames_concatenated_zeros : ∃ (tx rx : Network (Message Empty ℚ))
    (before : List (Message Empty ℚ)),
    Relation.ReflTransGen Network.Step (.start (transmitter (fun _ => none) ⟨0xA9, 0xFF⟩ one_pos
      (by decide) ReedSolomon.evaluationFec asmConfig_valid ⟨0, 0, 0, 0⟩)) tx ∧ tx.out.length = 2 ∧
    Relation.ReflTransGen Network.Step (.start (concatenatedReceiver (fun _ => none) ⟨0xA9, 0xFF⟩
      ConvDecode.saturatedExp (ConvDecode.exhaustive
        [ConvDecode.convertPoly 0x79#8, ConvDecode.convertPoly 0xDB#8] 63) one_pos (by decide)
      ReedSolomon.evaluationFec ⟨0, 0, 0⟩ asmConfig.asm)) rx ∧
    before.length ≤ 1 ∧ rx.out = before ++ [blobMessage [] zeros] := by
  let c : Randomiser.Config := ⟨0xA9, 0xFF⟩
  let frames : List (Frame Empty) := [([], zeros), ([], zeros)]
  let blocks := frames.map fun f =>
    (f.1, asmConfig.asmBytes ++ payload c ReedSolomon.evaluationFec 1 f.2)
  have hframes : ∀ f ∈ frames, f.2.length = 223 * 1 := by
    intro f hf
    rcases List.mem_cons.mp hf with rfl | hf
    · exact List.length_replicate
    · rw [List.mem_singleton.mp hf]
      exact List.length_replicate
  have harrive := (Relation.ReflTransGen.single (Network.Step.arrive (.start (transmitter
    (fun _ : Empty => none) c one_pos (by decide) ReedSolomon.evaluationFec asmConfig_valid
      ⟨0, 0, 0, 0⟩)) (blobMessage [] zeros : Message Empty ℚ))).tail
    (Network.Step.arrive _ (blobMessage [] zeros))
  obtain ⟨tx, hcalls, -, hsent, hout⟩ := (transmitter_delivers _ _ _ _ _ rfl _ hframes harrive
    rfl).settles
  have hblocks : ∀ f ∈ blocks, f.2.length = asmConfig.asmLen + 255 * 1 := by
    intro f hf
    obtain ⟨g, -, rfl⟩ := List.mem_map.mp hf
    rw [List.length_append, asmConfig_valid.asm, length_payload]
  obtain ⟨events, source, hdelivered, hsource, hbytes⟩ : ∃ (events : List (Event Empty ℚ))
      (source : BlobSource.Session Empty), events.filterMap Event.delivered = messages blocks ∧ _ :=
    exists_source (c := ⟨asmConfig.asmLen + 255 * 1, "packet_len"⟩) hblocks
  have hmarker : (hexstringToBinary asmConfig.asm).length = 4 := by decide +kernel
  have hstream : source.plain.out.length = 518 := by
    have hfirst := hblocks _ List.mem_cons_self
    rw [hbytes]
    change (_ ++ (_ ++ [])).length = 518
    rw [List.length_append, List.append_nil, hfirst]
    decide +kernel
  have hcoded := length_out_of_call 0x79#8 0xDB#8 source.plain.out
  generalize hworked : (runCalls (.make 0x79#8 0xDB#8 .none)
    [⟨2 * source.plain.out.length, source.plain.out.length⟩] .initial source.plain.out).out = out
    at hcoded
  have hcomplete : codedStart asmConfig.asm (255 * 1) 0 + 2 * (8 * (255 * 1) + 6) ≤
      8 * out.length := by
    rw [codedStart, hmarker]
    omega
  have hbits : (codedFrame asmConfig.asm (255 * 1) 0 (ofBytes out)).length =
      2 * (8 * (255 * 1) + 6) := by
    rw [codedFrame, List.length_take, List.length_drop, length_ofBytes]
    omega
  let values := saturated (codedFrame asmConfig.asm (255 * 1) 0 (ofBytes out))
  let received : List (Header Empty × List ℚ) := [([], List.replicate 4092 0), ([], values)]
  have hreadable : ∀ r ∈ received, Readable (fun _ : Empty => none) (255 * 1) r.1 r.2 := by
    intro r hr
    rcases List.mem_cons.mp hr with rfl | hr
    · exact ⟨by decide, fun _ => List.length_replicate.ge⟩
    · rw [List.mem_singleton.mp hr]
      refine ⟨fun hnumber => ?_, fun _ => ((List.length_map _).trans hbits).ge⟩
      cases hnumber
  have hreceive := (Relation.ReflTransGen.single (Network.Step.arrive (.start (concatenatedReceiver
    (fun _ : Empty => none) c ConvDecode.saturatedExp (ConvDecode.exhaustive
      [ConvDecode.convertPoly 0x79#8, ConvDecode.convertPoly 0xDB#8] 63) one_pos (by decide)
    ReedSolomon.evaluationFec ⟨0, 0, 0⟩ asmConfig.asm))
    (Converters.softMessage [] (List.replicate 4092 0) : Message Empty ℚ))).tail
    (Network.Step.arrive _ (Converters.softMessage [] values))
  obtain ⟨delivered, hdelivers, hmatch⟩ : ∃ delivered : List (List (Message Empty ℚ)), _ ∧
      List.Forall₂ _ [_, _] delivered := frames_concatenated _ c ConvDecode.corrects_standard
    ReedSolomon.evaluationFec_correctsSixteen one_pos (by decide) (by decide) asmConfig_valid rfl
    (by decide +kernel) (by decide +kernel) _ ⟨0, 0, 0⟩ hframes
    (Network.reachable_of_calls harrive hcalls) hsent "packet_len"
    (hdelivered ▸ hout ▸ List.prefix_refl _) hsource
    [⟨2 * source.plain.out.length, source.plain.out.length⟩] hreadable hreceive
    (by simp only [Network.arrive, Network.start, List.nil_append, List.cons_append, received,
      List.map_cons, List.map_nil])
  obtain ⟨rx, hlast, -, -, hfinal⟩ := hdelivers.settles
  cases hmatch with
  | cons hfirst hrest =>
      cases hrest with
      | cons hsecond hnone =>
          cases hnone
          obtain ⟨f, hf, hframe⟩ := hsecond.2 0
            ⟨hworked ▸ hcomplete, hworked ▸ received_saturated hbits⟩
          obtain rfl : ([], zeros) = f := Option.some.inj hf
          refine ⟨tx, rx, _, Network.reachable_of_calls harrive hcalls, by rw [hout]; rfl,
            Network.reachable_of_calls hreceive hlast, hfirst.1, ?_⟩
          rw [hfinal, hframe, List.flatten_cons, List.flatten_cons, List.flatten_nil,
            List.append_nil]

end Example

end GrCcsds.MessageChain
