import GrCcsds.BlockPrefix.Forecast
import GrCcsds.Foundation.Grouping
import GrCcsds.MessageChain.Handlers
import GrCcsds.Messages.RoundTrip

/-! # Two ways to put an ASM in front of frames

`add_asm` in front of a `blob_msg_source_b`, and a `block_prefix_bb` behind one.
The streams agree, but the second one may run ahead with the ASM of a frame that
has not arrived.
-/

namespace GrCcsds.MessageChain

open Utils Messages
open Foundation Foundation.Framing Foundation.Pipeline
open BlockPrefix (Config)

variable {Other Float : Type}

def messages (frames : List (Frame Other)) : List (Message Other Float) :=
  frames.map fun f => blobMessage f.1 f.2

/-- The stream of frames with an ASM in front of each. -/
def marked (asm : List UInt8) (frames : List (Frame Other)) : List UInt8 :=
  frames.flatMap fun f => asm ++ f.2

section Source

theorem accepted_messages {len : Nat} {frames : List (Frame Other)}
    (hframes : ∀ f ∈ frames, f.2.length = len) :
    accepted len Data.blobData (messages frames : List (Message Other Float)) = frames := by
  induction frames with
  | nil => rfl
  | cons f rest ih =>
      have hrest := ih fun g hg => hframes g (List.mem_cons_of_mem _ hg)
      rw [messages, List.map_cons, accepted_cons, blobMessage]
      change accepted len Data.blobData [.pair (some f.1) (.blob f.2)] ++
        accepted len Data.blobData (messages rest : List (Message Other Float)) = f :: rest
      rw [hrest]
      simp [accepted, receive, Data.blobData, hframes f List.mem_cons_self]

/-- The output of a source is a part of the payload of what it receives. -/
theorem source_out {c : BlobConfig} {frames : List (Frame Other)}
    (hframes : ∀ f ∈ frames, f.2.length = c.blobLen) {events : List (Event Other Float)}
    (hdelivered : events.filterMap Event.delivered = messages frames)
    {s : BlobSource.Session Other}
    (hrun : Transition.run (BlobSource.Session.step c) .initial events = some s) :
    s.plain.out ++ s.source.queue = frames.flatMap Prod.snd := by
  obtain ⟨other, hother, hreproduces⟩ := blob_reproduces c events
  obtain rfl := Option.some.inj (hrun.symm.trans hother)
  have hconserved := hreproduces.conserved
  rw [hdelivered, accepted_messages hframes] at hconserved
  exact hconserved

/-- A part of the messages are those of the first frames. -/
theorem source_out_prefix {c : BlobConfig} {frames : List (Frame Other)}
    (hframes : ∀ f ∈ frames, f.2.length = c.blobLen) {events : List (Event Other Float)}
    (hdelivered : events.filterMap Event.delivered <+: messages frames)
    {s : BlobSource.Session Other}
    (hrun : Transition.run (BlobSource.Session.step c) .initial events = some s) :
    s.plain.out <+: frames.flatMap Prod.snd := by
  have htake := List.prefix_iff_eq_take.mp hdelivered
  rw [messages, ← List.map_take] at htake
  have hout := source_out (fun f hf => hframes f (List.mem_of_mem_take hf)) htake hrun
  have hall : (frames.take (events.filterMap Event.delivered).length).flatMap Prod.snd <+:
      frames.flatMap Prod.snd := by
    conv_rhs => rw [← List.take_append_drop (events.filterMap Event.delivered).length frames,
      List.flatMap_append]
    exact List.prefix_append _ _
  exact (List.prefix_append _ _).trans (hout ▸ hall)

end Source

section Prefix

/-- Both constructors decode a string of digits to the same bytes. -/
theorem make_prefix {cfg : AddAsm.Config} {c : Config}
    (hmake : BlockPrefix.make cfg.asm cfg.frameLen = .ok c) :
    c = ⟨cfg.asmBytes, cfg.frameLen⟩ := by
  rw [BlockPrefix.make, FrameSync.decodeHex] at hmake
  split at hmake
  next heven =>
    obtain rfl := Except.ok.inj hmake
    rw [AddAsm.Config.asmBytes, ConvDecode.hexstringToBinary, if_neg (not_not_intro heven)]
  next hodd => cases hmake

variable {asm : List UInt8} {len : Nat} {frames : List (Frame Other)}

/-- The bytes of the frames as a stream. -/
def payloadAt (frames : List (Frame Other)) (i : Nat) : UInt8 := (frames.flatMap Prod.snd).getD i 0

theorem framed_payloadAt (hframes : ∀ f ∈ frames, f.2.length = len) :
    framed asm len (payloadAt frames) frames.length = marked asm frames := by
  induction frames with
  | nil => rfl
  | cons f rest ih =>
      have hlength : f.2.length = len := hframes f List.mem_cons_self
      have hfirst : block asm len (payloadAt (f :: rest)) 0 = asm ++ f.2 := by
        rw [block]
        congr 1
        apply List.ext_getElem
        · simp [hlength]
        · intro i _ hi
          simp [payloadAt, List.getElem?_append_left hi, hi]
      have hnext : ∀ k, block asm len (payloadAt (f :: rest)) (k + 1) =
          block asm len (payloadAt rest) k := by
        intro k
        rw [block, block]
        congr 1
        refine List.map_congr_left fun j _ => ?_
        have hposition : (k + 1) * len + j = f.2.length + (k * len + j) := by
          rw [hlength, Nat.succ_mul]
          omega
        rw [hposition, payloadAt, payloadAt, List.flatMap_cons,
          List.getD_append_right _ _ _ _ (Nat.le_add_right _ _), Nat.add_sub_cancel_left]
      rw [List.length_cons, framed, List.range_succ_eq_map, List.flatMap_cons, hfirst,
        List.flatMap_map]
      simp only [hnext]
      rw [marked, List.flatMap_cons]
      exact congrArg _ (ih fun g hg => hframes g (List.mem_cons_of_mem _ hg))

variable {bytes : List UInt8} {s : BlockPrefix.Session}

/-- A call sees what has been output in front of it. -/
def Sees (bytes : List UInt8) (s : BlockPrefix.Session) (call : BlockPrefix.Call) : Prop :=
  s.consumed + call.ninputItems ≤ bytes.length

/-- The bytes that have been output are as good as the whole stream. -/
theorem streams_of_sees {c : Config} {input : Nat → UInt8} (hblock : 0 < c.outputBlockLen)
    (hagree : ∀ i < bytes.length, bytes.getD i 0 = input i)
    (hreachable : Transition.Reachable (BlockPrefix.Session.step c fun i => bytes.getD i 0)
      (Sees bytes) .initial s) : s.Streams c input ∧ s.consumed ≤ bytes.length := by
  induction hreachable with
  | refl => exact ⟨⟨stands_start, hblock⟩, Nat.zero_le _⟩
  | @step before next call hbefore hsees hstep ih =>
      obtain ⟨hstreams, -⟩ := ih
      have hsame : before.step c input call = some next := by
        rw [← hstep, BlockPrefix.Session.step, BlockPrefix.Session.step]
        congr 2
        refine List.map_congr_left fun i hi => (hagree _ ?_).symm
        have hlt := List.mem_range.mp hi
        unfold Sees at hsees
        omega
      obtain ⟨w, hwork, hfollows, -⟩ := BlockPrefix.Session.generalWork_spec hblock hstreams
        (BlockPrefix.Session.permitted_of_step hsame)
      have hnext : before.step c input call = some
          { blockCounter := w.blockCounter
            out := before.out ++ w.out
            consumed := before.consumed + w.numInTotal } := by
        rw [BlockPrefix.Session.step, hwork]
        rfl
      obtain rfl := Option.some.inj (hsame.symm.trans hnext)
      refine ⟨⟨hfollows.stands, hfollows.counter_lt⟩, ?_⟩
      exact (Nat.add_le_add_left hfollows.numInTotal_le _).trans hsees

/-- The output in front of some position is marked frames, behind which there may be an ASM. -/
theorem prefixed_out {c : Config} (hpos : 0 < c.blockLen)
    (hframes : ∀ f ∈ frames, f.2.length = c.blockLen)
    (hstreams : s.Streams c (payloadAt frames))
    (hconsumed : s.consumed ≤ frames.length * c.blockLen) :
    s.out <+: marked c.prefixBytes frames ++ c.prefixBytes ∧
      (s.consumed = frames.length * c.blockLen →
        s.out = marked c.prefixBytes frames ++ c.prefixBytes.take s.blockCounter) := by
  obtain ⟨⟨blocks, hout, hdata⟩, hcounter⟩ := hstreams
  have hcount : s.blockCounter < c.prefixBytes.length + c.blockLen := hcounter
  have hblocks : blocks ≤ frames.length := by
    refine Nat.le_of_mul_le_mul_right ?_ hpos
    omega
  rw [← framed_payloadAt hframes]
  rcases Nat.lt_or_eq_of_le hblocks with hbefore | rfl
  · have hless : (blocks + 1) * c.blockLen ≤ frames.length * c.blockLen :=
      Nat.mul_le_mul_right _ hbefore
    rw [Nat.succ_mul] at hless
    refine ⟨?_, fun hall => by omega⟩
    have hnext : s.out <+: framed c.prefixBytes c.blockLen (payloadAt frames) (blocks + 1) := by
      rw [hout, framed_succ]
      exact (List.prefix_append_right_inj _).mpr (List.take_prefix _ _)
    have hmore : framed c.prefixBytes c.blockLen (payloadAt frames) (blocks + 1) <+:
        framed c.prefixBytes c.blockLen (payloadAt frames) frames.length := by
      obtain ⟨rest, hrest⟩ := Nat.exists_eq_add_of_le hbefore
      have hrange : List.range (blocks + 1 + rest) =
          List.range (blocks + 1) ++ (List.range rest).map fun k => blocks + 1 + k := List.range_add
      rw [hrest, framed, framed, hrange, List.flatMap_append]
      exact List.prefix_append _ _
    exact hnext.trans (hmore.trans (List.prefix_append _ _))
  · have hfront : (block c.prefixBytes c.blockLen (payloadAt frames) frames.length).take
        s.blockCounter = c.prefixBytes.take s.blockCounter := by
      rw [block, List.take_append_of_le_length (by omega)]
    rw [hfront] at hout
    exact ⟨hout ▸ (List.prefix_append_right_inj _).mpr (List.take_prefix _ _), fun _ => hout⟩

end Prefix

section Agreement

variable {cfg : AddAsm.Config} (hvalid : cfg.Valid) {frames : List (Frame Other)}

theorem addAsm_delivers (hframes : ∀ f ∈ frames, f.2.length = cfg.frameLen)
    {n : Network (Message Other Float)}
    (hn : Relation.ReflTransGen Network.Step (.start [addAsm hvalid]) n)
    (harrived : n.arrived = messages frames) :
    n.Delivers (messages (frames.map fun f => (f.1, cfg.asmBytes ++ f.2))) := by
  have hfits : ∀ msg ∈ n.arrived, Fits [addAsm hvalid] msg := by
    rw [harrived]
    intro msg hmsg
    obtain ⟨f, hf, rfl⟩ := List.mem_map.mp hmsg
    exact ⟨⟨f.1, f.2, rfl, hframes f hf⟩, fun _ _ => trivial⟩
  have hdelivers := Network.delivers_of_reachable hn hfits
  have hthrough : n.arrived.flatMap (through [addAsm hvalid]) =
      (messages (frames.map fun f => (f.1, cfg.asmBytes ++ f.2)) : List (Message Other Float)) := by
    rw [harrived, messages, messages, List.flatMap_map, List.map_map, List.map_eq_flatMap]
    rfl
  rwa [hthrough] at hdelivers

/-- The output of both ways in any runs over the same frames, whose bytes agree at every position.
The first way outputs all when its queues are empty, the second one when it has consumed the bytes
of all frames, except that it may have begun the next ASM. -/
theorem framings_agree (hpos : 1 ≤ cfg.frameLen)
    (hframes : ∀ f ∈ frames, f.2.length = cfg.frameLen) (firstTag secondTag : String)
    {n : Network (Message Other Float)}
    (hn : Relation.ReflTransGen Network.Step (.start [addAsm hvalid]) n)
    (harrived : n.arrived = messages frames)
    {first second : List (Event Other Float)} {a b : BlobSource.Session Other}
    (hfirst : first.filterMap Event.delivered <+: n.out)
    (ha : Transition.run (BlobSource.Session.step ⟨cfg.asmLen + cfg.frameLen, firstTag⟩) .initial
      first = some a)
    (hsecond : second.filterMap Event.delivered <+: messages frames)
    (hb : Transition.run (BlobSource.Session.step ⟨cfg.frameLen, secondTag⟩) .initial second =
      some b)
    {c : Config} (hmake : BlockPrefix.make cfg.asm cfg.frameLen = .ok c) {s : BlockPrefix.Session}
    (hs : Transition.Reachable (BlockPrefix.Session.step c fun i => b.plain.out.getD i 0)
      (Sees b.plain.out) .initial s) :
    (∀ (i : Nat) (x y : UInt8), a.plain.out[i]? = some x → s.out[i]? = some y → x = y) ∧
      (n.Quiet → first.filterMap Event.delivered = n.out → a.source.queue = [] →
        a.plain.out = marked cfg.asmBytes frames) ∧
      (s.consumed = frames.length * cfg.frameLen →
        s.out = marked cfg.asmBytes frames ++ cfg.asmBytes.take s.blockCounter) := by
  obtain rfl := make_prefix hmake
  have hmarkedFrames : ∀ f ∈ frames.map fun f => (f.1, cfg.asmBytes ++ f.2),
      f.2.length = cfg.asmLen + cfg.frameLen := by
    intro f hf
    obtain ⟨g, hg, rfl⟩ := List.mem_map.mp hf
    rw [List.length_append, hvalid.asm, hframes g hg]
  have hmarked : (frames.map fun f => (f.1, cfg.asmBytes ++ f.2)).flatMap Prod.snd =
      marked cfg.asmBytes frames := by
    rw [List.flatMap_map, marked]
  have hdelivers := addAsm_delivers hvalid hframes hn harrived
  have hout := source_out_prefix hmarkedFrames (hfirst.trans hdelivers.begins) ha
  rw [hmarked] at hout
  -- the other way, whose source outputs a part of the bytes of the frames
  have hbytes := source_out_prefix hframes hsecond hb
  have hlength : (frames.flatMap Prod.snd).length = frames.length * cfg.frameLen :=
    length_payloads hframes
  have hagree : ∀ i < b.plain.out.length, b.plain.out.getD i 0 = payloadAt frames i := by
    intro i hi
    rw [payloadAt, List.getD_eq_getElem?_getD, List.getD_eq_getElem?_getD,
      List.prefix_iff_getElem?.mp hbytes i hi, List.getElem?_eq_getElem hi]
  obtain ⟨hstreams, hconsumed⟩ := streams_of_sees
    (Nat.add_pos_right _ hpos : 0 < (⟨cfg.asmBytes, cfg.frameLen⟩ : Config).outputBlockLen)
    hagree hs
  have hblock : 0 < (⟨cfg.asmBytes, cfg.frameLen⟩ : Config).blockLen := hpos
  obtain ⟨hprefixed, hall⟩ := prefixed_out hblock hframes hstreams
    (hconsumed.trans (hbytes.length_le.trans hlength.le))
  refine ⟨fun i x y hx hy => ?_, fun hquiet hcomplete hempty => ?_, hall⟩
  · have hfar := hout.trans (List.prefix_append _ cfg.asmBytes)
    obtain ⟨hxInside, hxValue⟩ := List.getElem?_eq_some_iff.mp hx
    obtain ⟨hyInside, hyValue⟩ := List.getElem?_eq_some_iff.mp hy
    have hxMarked := List.prefix_iff_getElem?.mp hfar i hxInside
    have hyMarked := List.prefix_iff_getElem?.mp hprefixed i hyInside
    rw [hxValue] at hxMarked
    rw [hyValue] at hyMarked
    exact Option.some.inj (hxMarked.symm.trans hyMarked)
  · rw [hdelivers.complete hquiet] at hcomplete
    have hitems := source_out hmarkedFrames hcomplete ha
    rwa [hempty, List.append_nil, hmarked] at hitems

end Agreement

section Example

/-- An ASM of two bytes in front of three bytes. -/
def shortConfig : AddAsm.Config := ⟨"1ACF", 3⟩

theorem shortConfig_valid : shortConfig.Valid := ⟨by decide, by decide⟩

/-- The block puts out the first byte of an ASM behind the only frame. -/
theorem framings_agree_ahead : ∃ (a : BlobSource.Session Empty) (s : BlockPrefix.Session),
    a.plain.out = [0x1A, 0xCF, 1, 2, 3] ∧ s.out = [0x1A, 0xCF, 1, 2, 3, 0x1A] := by
  let frames : List (Frame Empty) := [([], [1, 2, 3])]
  have hframes : ∀ f ∈ frames, f.2.length = shortConfig.frameLen := by decide
  have harrive := Relation.ReflTransGen.single (Network.Step.arrive (.start [addAsm
    shortConfig_valid]) (blobMessage [] [1, 2, 3] : Message Empty Unit))
  obtain ⟨n, hcalls, hquiet, harrived, hout⟩ := (addAsm_delivers shortConfig_valid hframes harrive
    rfl).settles
  let first : List (Event Empty Unit) :=
    [.work 2, .message (blobMessage [] [0x1A, 0xCF, 1, 2, 3]), .work 4, .work 4]
  let second : List (Event Empty Unit) := [.message (blobMessage [] [1, 2, 3]), .work 3]
  have hdelivered : first.filterMap Event.delivered = n.out := by
    rw [hout]
    rfl
  obtain ⟨a, ha, hempty⟩ : ∃ a, Transition.run (BlobSource.Session.step ⟨5, "length"⟩) .initial
      first = some a ∧ a.source.queue = [] := ⟨_, rfl, rfl⟩
  obtain ⟨b, hb, hbytes⟩ : ∃ b, Transition.run (BlobSource.Session.step ⟨3, "length"⟩) .initial
      second = some b ∧ b.plain.out = [1, 2, 3] := ⟨_, rfl, rfl⟩
  obtain ⟨c, hmake⟩ : ∃ c, BlockPrefix.make shortConfig.asm shortConfig.frameLen = .ok c :=
    ⟨_, rfl⟩
  obtain ⟨s, hstep, hend⟩ : ∃ s, BlockPrefix.Session.step c (fun i => [1, 2, 3].getD i 0) .initial
      ⟨6, 3⟩ = some s ∧ (s.consumed, s.blockCounter) = (3, 1) := by
    obtain rfl := make_prefix hmake
    exact ⟨_, rfl, rfl⟩
  have hsees : Sees b.plain.out .initial ⟨6, 3⟩ := by
    rw [hbytes]
    exact Nat.le_refl 3
  obtain ⟨-, hfirst, hsecond⟩ := framings_agree shortConfig_valid (by decide) hframes "length"
    "length" (Network.reachable_of_calls harrive hcalls) harrived
    (hdelivered ▸ List.prefix_refl _) ha (List.prefix_refl _) hb hmake
    (Transition.Reachable.refl.step hsees (hbytes ▸ hstep))
  obtain ⟨hconsumed, hcounter⟩ := Prod.mk.inj hend
  refine ⟨a, s, hfirst hquiet hdelivered hempty, ?_⟩
  rw [hsecond hconsumed, hcounter]
  rfl

end Example

end GrCcsds.MessageChain
