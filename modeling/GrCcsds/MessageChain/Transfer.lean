import GrCcsds.MessageChain.Handlers

/-! # Frames over two chains of messages

Encoder, randomiser and ASM on one side, decisions, randomiser and decoder on the
other one. Whatever the order of the calls of the handlers is, the frames come out
in the order in which they have been sent, also when the channel has changed some
bits.
-/

namespace GrCcsds.MessageChain

open Utils Messages
open Foundation Foundation.Bits Foundation.Pipeline
open Softbits (hardDecision)

variable {Other R : Type} [DecidableEq Other] [Arithmetic R] (unsigned : Other → Option UInt64)
  {fec : ReedSolomon.Fec} {depth : Nat} (c : Randomiser.Config)

/-- What a transmitter makes of a frame, in front of which it puts the ASM. -/
def payload (fec : ReedSolomon.Fec) (depth : Nat) (frame : List UInt8) : List UInt8 :=
  Randomiser.Hard.randomised c (ReedSolomon.encoded fec depth frame)

/-- What the receiver gets of a transmitted message, without the ASM. In each codeword at most
sixteen bytes have wrong decisions. -/
structure Survives (depth : Nat) (sent : List UInt8) (header : Header Other) (values : List R) :
    Prop where
  frameNumber : frameNumber unsigned header ≠ .wrongType
  length : values.length = 8 * sent.length
  few : ∀ row < depth,
    (ReedSolomon.wrongInClass depth sent (toBytes (values.map hardDecision)) row).card ≤ 16

section Randomised

/-- Wrong bytes stay at their positions. -/
theorem wrongInClass_randomised {sent received : List UInt8}
    (hlength : received.length = sent.length) (row : Nat) :
    ReedSolomon.wrongInClass depth sent (Randomiser.Hard.randomised c received) row =
      ReedSolomon.wrongInClass depth (Randomiser.Hard.randomised c sent) received row := by
  unfold ReedSolomon.wrongInClass
  rw [Randomiser.Hard.length_randomised]
  refine Finset.filter_congr fun p hp => and_congr_right fun _ => not_congr ?_
  have hsent : p < sent.length := Finset.mem_range.mp hp
  have hreceived : p < received.length := hlength ▸ hsent
  simp only [Randomiser.Hard.randomised, List.getD_eq_getElem?_getD, List.getElem?_mapIdx,
    List.getElem?_eq_getElem hsent, List.getElem?_eq_getElem hreceived, Option.map_some,
    Option.getD_some]
  constructor
  · intro heq
    rw [heq, UInt8.xor_assoc, UInt8.xor_self, UInt8.xor_zero]
  · intro heq
    rw [← heq, UInt8.xor_assoc, UInt8.xor_self, UInt8.xor_zero]

end Randomised

section Chains

variable (hdepth : 0 < depth) (hsize : 255 * depth * depth < size32)

include hdepth hsize

theorem blockLen_lt : 255 * depth < size32 :=
  Nat.lt_of_le_of_lt (Nat.le_mul_of_pos_right _ hdepth) hsize

/-- The transmitter with buffers of any contents. -/
def transmitter (fec : ReedSolomon.Fec) {cfg : AddAsm.Config} (hvalid : cfg.Valid)
    (buffers : ReedSolomon.EncodeBuffers) : List (Component (Message Other R)) :=
  [rsEncode unsigned fec hdepth hsize buffers, randomiser c, addAsm hvalid]

/-- The receiver with buffers of any contents. -/
def receiver (fec : ReedSolomon.Fec) (buffers : ReedSolomon.DecodeBuffers) :
    List (Component (Message Other R)) :=
  [softToHard, randomiser c, rsDecode unsigned fec hdepth hsize buffers]

omit [Arithmetic R] in
theorem transmitter_frame {cfg : AddAsm.Config} (hvalid : cfg.Valid)
    (hlen : cfg.frameLen = 255 * depth) (buffers : ReedSolomon.EncodeBuffers)
    (header : Header Other) {frame : List UInt8} (hframe : frame.length = 223 * depth) :
    Fits (transmitter unsigned c hdepth hsize fec hvalid buffers)
        (blobMessage header frame : Message Other R) ∧
      through (transmitter unsigned c hdepth hsize fec hvalid buffers)
        (blobMessage header frame : Message Other R) =
          [blobMessage header (cfg.asmBytes ++ payload c fec depth frame)] := by
  have hencoded : HasBytes (255 * depth)
      (blobMessage header (ReedSolomon.encoded fec depth frame) : Message Other R) :=
    ⟨header, _, rfl, ReedSolomon.length_encoded⟩
  have hpayload : HasBytes cfg.frameLen
      (blobMessage header (payload c fec depth frame) : Message Other R) :=
    ⟨header, _, rfl, by rw [payload, Randomiser.Hard.length_randomised,
      ReedSolomon.length_encoded, hlen]⟩
  refine ⟨⟨⟨header, frame, rfl, hframe⟩, ?_⟩, rfl⟩
  intro encoded hmem
  obtain rfl := List.mem_singleton.mp hmem
  refine ⟨⟨_, blockLen_lt hdepth hsize, hencoded⟩, ?_⟩
  intro randomised hmem
  obtain rfl := List.mem_singleton.mp hmem
  exact ⟨hpayload, fun _ _ => trivial⟩

theorem receiver_frame (hfec : fec.CorrectsSixteen) (buffers : ReedSolomon.DecodeBuffers)
    {header : Header Other} {values : List R} {frame : List UInt8}
    (hframe : frame.length = 223 * depth)
    (hsurvives : Survives unsigned depth (payload c fec depth frame) header values) :
    Fits (receiver unsigned c hdepth hsize fec buffers) (Converters.softMessage header values) ∧
      through (receiver unsigned c hdepth hsize fec buffers)
        (Converters.softMessage header values) = [blobMessage header frame] := by
  have hpayload : (payload c fec depth frame).length = 255 * depth := by
    rw [payload, Randomiser.Hard.length_randomised, ReedSolomon.length_encoded]
  have hvalues : values.length = 8 * (255 * depth) := hpayload ▸ hsurvives.length
  have hbytes : (toBytes (values.map hardDecision)).length = 255 * depth := by
    rw [length_toBytes, List.length_map, hvalues, Nat.mul_div_cancel_left _ (by decide)]
  have hdecodable : Decodable fec depth unsigned header
      (Randomiser.Hard.randomised c (toBytes (values.map hardDecision))) frame := by
    refine ⟨hsurvives.frameNumber, by rw [Randomiser.Hard.length_randomised, hbytes], hframe, ?_⟩
    intro row hrow
    rw [wrongInClass_randomised c (hbytes.trans ReedSolomon.length_encoded.symm)]
    exact hsurvives.few row hrow
  constructor
  · refine ⟨⟨header, values, rfl, _, hvalues⟩, ?_⟩
    intro hard hmem
    obtain rfl := List.mem_singleton.mp hmem
    refine ⟨⟨_, blockLen_lt hdepth hsize, header, _, rfl, hbytes⟩, ?_⟩
    intro randomised hmem
    obtain rfl := List.mem_singleton.mp hmem
    exact ⟨⟨header, _, rfl, hdecodable.length_received, hdecodable.frameNumber⟩, fun _ _ => trivial⟩
  · change ((decoded fec depth (blobMessage header _)).flatMap fun msg => [msg]) ++ [] ++ [] = _
    rw [decoded_eq unsigned hfec hdepth hdecodable]
    rfl

end Chains

/-- A message as it leaves the transmitter, and the header and the soft bits that arrive at the
receiver. -/
def Channel (depth asmLen : Nat) (msg : Message Other R) (received : Header Other × List R) :
    Prop :=
  ∃ header bytes, msg = blobMessage header bytes ∧
    Survives unsigned depth (bytes.drop asmLen) received.1 received.2

section Transfer

variable (hfec : fec.CorrectsSixteen) (hdepth : 0 < depth) (hsize : 255 * depth * depth < size32)
  {cfg : AddAsm.Config} (hvalid : cfg.Valid) (hlen : cfg.frameLen = 255 * depth)
  (encodeBuffers : ReedSolomon.EncodeBuffers) (decodeBuffers : ReedSolomon.DecodeBuffers)

include hlen

omit [Arithmetic R] in
theorem flatMap_transmitter {frames : List (Frame Other)}
    (hframes : ∀ f ∈ frames, f.2.length = 223 * depth) :
    (frames.map fun f => (blobMessage f.1 f.2 : Message Other R)).flatMap
        (through (transmitter unsigned c hdepth hsize fec hvalid encodeBuffers)) =
      frames.map fun f => blobMessage f.1 (cfg.asmBytes ++ payload c fec depth f.2) := by
  rw [List.flatMap_map, List.map_eq_flatMap]
  exact List.flatMap_congr fun f hf =>
    (transmitter_frame unsigned c hdepth hsize hvalid hlen encodeBuffers f.1 (hframes f hf)).2

omit [Arithmetic R] in
/-- What the transmitter sends. -/
theorem transmitter_delivers {frames : List (Frame Other)}
    (hframes : ∀ f ∈ frames, f.2.length = 223 * depth) {tx : Network (Message Other R)}
    (htx : Relation.ReflTransGen Network.Step
      (.start (transmitter unsigned c hdepth hsize fec hvalid encodeBuffers)) tx)
    (harrived : tx.arrived = frames.map fun f => blobMessage f.1 f.2) :
    tx.Delivers (frames.map fun f =>
      blobMessage f.1 (cfg.asmBytes ++ payload c fec depth f.2)) := by
  have hfits : ∀ msg ∈ tx.arrived,
      Fits (transmitter unsigned c hdepth hsize fec hvalid encodeBuffers) msg := by
    rw [harrived]
    intro msg hmsg
    obtain ⟨f, hf, rfl⟩ := List.mem_map.mp hmsg
    exact (transmitter_frame unsigned c hdepth hsize hvalid hlen encodeBuffers f.1
      (hframes f hf)).1
  have hdelivers := Network.delivers_of_reachable htx hfits
  rwa [harrived, flatMap_transmitter unsigned c hdepth hsize hvalid hlen encodeBuffers hframes]
    at hdelivers

include hfec in
/-- In every run of the transmitter and every run of the receiver on what arrives of its output,
both deliver the frames that the transmitter has got, the receiver with its own headers. -/
theorem frames_transferred {frames : List (Frame Other)}
    (hframes : ∀ f ∈ frames, f.2.length = 223 * depth) {tx rx : Network (Message Other R)}
    (htx : Relation.ReflTransGen Network.Step
      (.start (transmitter unsigned c hdepth hsize fec hvalid encodeBuffers)) tx)
    (hsent : tx.arrived = frames.map fun f => blobMessage f.1 f.2)
    {received : List (Header Other × List R)}
    (hchannel : List.Forall₂ (Channel unsigned depth cfg.asmLen) (tx.out.take received.length)
      received)
    (hrx : Relation.ReflTransGen Network.Step
      (.start (receiver unsigned c hdepth hsize fec decodeBuffers)) rx)
    (hreceived : rx.arrived = received.map fun r => Converters.softMessage r.1 r.2) :
    tx.Delivers (frames.map fun f => blobMessage f.1 (cfg.asmBytes ++ payload c fec depth f.2)) ∧
      rx.Delivers (List.zipWith (fun r (f : Frame Other) => blobMessage r.1 f.2) received
        frames) := by
  have htransmitted := transmitter_delivers unsigned c hdepth hsize hvalid hlen encodeBuffers
    hframes htx hsent
  refine ⟨htransmitted, Network.delivers_zipWith hrx hreceived fun k r hr => ?_⟩
  obtain ⟨hk, rfl⟩ := List.getElem?_eq_some_iff.mp hr
  have hcount := hchannel.length_eq
  have hsurvives := (List.forall₂_iff_get.mp hchannel).2 k (by omega) hk
  -- what has arrived belongs to a frame
  rw [List.length_take] at hcount
  have hout : k < tx.out.length := by omega
  have hsame := htransmitted.begins.getElem hout
  have hmore := htransmitted.begins.length_le
  rw [List.length_map] at hmore
  have hframe : k < frames.length := hout.trans_le hmore
  refine ⟨frames[k], List.getElem?_eq_getElem hframe, ?_⟩
  simp only [List.get_eq_getElem, List.getElem_take, hsame, List.getElem_map] at hsurvives
  obtain ⟨header, bytes, hmsg, hsurvives⟩ := hsurvives
  obtain ⟨-, rfl⟩ : frames[k].1 = header ∧
      cfg.asmBytes ++ payload c fec depth frames[k].2 = bytes := by
    simpa [blobMessage] using hmsg
  rw [← hvalid.asm, List.drop_left] at hsurvives
  exact receiver_frame unsigned c hdepth hsize hfec decodeBuffers
    (hframes _ (List.getElem_mem hframe)) hsurvives

end Transfer

section Example

open scoped ExactNumbers

/-- A frame of zeros. -/
def zeros : List UInt8 := List.replicate 223 0

/-- The ASM in front of a block without interleaving. -/
def asmConfig : AddAsm.Config := ⟨"1ACFFC1D", 255⟩

theorem asmConfig_valid : asmConfig.Valid := ⟨by decide, by decide⟩

/-- Sixteen wrong bytes. -/
def disturbed (blob : List UInt8) : List UInt8 :=
  blob.mapIdx fun p byte => if p < 16 then byte + 1 else byte

def decidedAs (bytes : List UInt8) : List ℚ := (ofBytes bytes).map fun bit => if bit then 1 else -1

theorem toBytes_decidedAs (bytes : List UInt8) :
    toBytes ((decidedAs bytes).map hardDecision) = bytes := by
  have hbit : ∀ bit : Bool, hardDecision (if bit then (1 : ℚ) else -1) = bit := by decide +kernel
  rw [decidedAs, List.map_map, Function.comp_def]
  simp only [hbit, List.map_id']
  exact toBytes_ofBytes bytes

theorem survives_disturbed (sent : List UInt8) : Survives (R := ℚ) (nofun : Empty → Option UInt64) 1
    sent [] (decidedAs (disturbed sent)) where
  frameNumber := by decide
  length := by simp [decidedAs, disturbed]
  few := by
    intro row hrow
    have hburst : ∀ p < sent.length, sent.getD p 0 ≠ (disturbed sent).getD p 0 →
        0 ≤ p ∧ p < 0 + 16 * 1 := by
      intro p _ hdiffers
      refine ⟨Nat.zero_le p, ?_⟩
      by_contra hmore
      apply hdiffers
      simp only [disturbed, List.getD_eq_getElem?_getD, List.getElem?_mapIdx]
      cases sent[p]? with
      | none => rfl
      | some byte => simp [hmore]
    rw [toBytes_decidedAs]
    exact ReedSolomon.wrongInClass_card_le_of_burst hburst hrow

theorem channel_disturbed (header : Header Empty) (sent : List UInt8) :
    Channel nofun 1 asmConfig.asmLen (blobMessage header (asmConfig.asmBytes ++ sent))
      (([], decidedAs (disturbed sent)) : Header Empty × List ℚ) := by
  refine ⟨header, _, rfl, ?_⟩
  rw [← asmConfig_valid.asm, List.drop_left]
  exact survives_disturbed sent

/-- A frame of zeros through both chains, with sixteen wrong bytes on the way. -/
theorem frames_transferred_zeros : ∃ tx rx : Network (Message Empty ℚ),
    Relation.ReflTransGen Network.Step (.start (transmitter nofun ⟨0xA9, 0xFF⟩ one_pos (by decide)
      ReedSolomon.evaluationFec asmConfig_valid ⟨0, 0, 0, 0⟩)) tx ∧
    tx.out.length = 1 ∧
    Relation.ReflTransGen Network.Step (.start (receiver nofun ⟨0xA9, 0xFF⟩ one_pos (by decide)
      ReedSolomon.evaluationFec ⟨0, 0, 0⟩)) rx ∧
    rx.out = [blobMessage [] zeros] := by
  let c : Randomiser.Config := ⟨0xA9, 0xFF⟩
  let sent := payload c ReedSolomon.evaluationFec 1 zeros
  let values := decidedAs (disturbed sent)
  have hframes : ∀ f ∈ [(([], zeros) : Frame Empty)], f.2.length = 223 * 1 := by
    intro f hf
    rw [List.mem_singleton.mp hf]
    exact List.length_replicate
  have harrive := Relation.ReflTransGen.single (Network.Step.arrive (.start (transmitter
    (nofun : Empty → Option UInt64) c one_pos (by decide) ReedSolomon.evaluationFec asmConfig_valid
      ⟨0, 0, 0, 0⟩)) (blobMessage [] zeros : Message Empty ℚ))
  obtain ⟨tx, hcalls, -, hsent, hout⟩ := (transmitter_delivers _ _ _ _ _ rfl _ hframes harrive
    rfl).settles
  have hchannel : List.Forall₂ (Channel (nofun : Empty → Option UInt64) 1 asmConfig.asmLen)
      (tx.out.take [(([], values) : Header Empty × List ℚ)].length) [([], values)] := by
    rw [hout]
    exact .cons (channel_disturbed [] sent) .nil
  have hreceive := Relation.ReflTransGen.single (Network.Step.arrive (.start (receiver
    (nofun : Empty → Option UInt64) c one_pos (by decide) ReedSolomon.evaluationFec ⟨0, 0, 0⟩))
      (Converters.softMessage [] values : Message Empty ℚ))
  obtain ⟨-, hdelivers⟩ := frames_transferred _ c ReedSolomon.evaluationFec_correctsSixteen one_pos
    (by decide) asmConfig_valid rfl _ ⟨0, 0, 0⟩ hframes
    (Network.reachable_of_calls harrive hcalls) hsent hchannel hreceive
    (by simp only [Network.arrive, Network.start, List.nil_append, List.map_cons, List.map_nil])
  obtain ⟨rx, hlast, -, -, hfinal⟩ := hdelivers.settles
  exact ⟨tx, rx, Network.reachable_of_calls harrive hcalls,
    by rw [hout, List.length_map, List.length_singleton],
    Network.reachable_of_calls hreceive hlast, hfinal⟩

end Example

end GrCcsds.MessageChain
