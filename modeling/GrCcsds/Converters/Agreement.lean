import GrCcsds.Ambiguity.Rotation
import GrCcsds.Arithmetic
import GrCcsds.Converters.Bytes
import GrCcsds.Foundation.Transition
import Mathlib.Data.Rat.Floor

/-! # The converters agree

Messages and streams lead to the same bytes, however the calls of `work` cut the
streams, as long as the counter of `softbits_msg_to_bytes_b` gets to the end of
a message and its index finds the same bits.
-/

namespace GrCcsds.Converters

open Utils Messages Softbits
open Foundation Foundation.Bits CountingLoop
open Ambiguity (extractBitLeft)

theorem except_map_ok {ε α β : Type} {x : Except ε α} {f : α → β} {y : β}
    (hmap : x.map f = .ok y) : ∃ a, x = .ok a ∧ f a = y := by
  cases x with
  | error fault => cases hmap
  | ok a => exact ⟨a, rfl, Except.ok.inj hmap⟩

/-- Bytes that are put out one after the other until nothing is left. -/
def Delivers (bytes out : List UInt8) (drained : Prop) : Prop :=
  out <+: bytes ∧ (drained → out = bytes)

section Agree

variable {R : Type} [Arithmetic R] {Other : Type}

/-- A message with soft bits. -/
def softMessage (header : Header Other) (values : List R) : Message Other R :=
  .pair (some header) (.f32vector values)

/-- The converters turn soft bits into bytes: the one between messages publishes them, the
one from messages to a stream puts them out however it is called, and so do the two of a chain
of streams, which also have calls that leave nothing behind. -/
structure Converts (header : Header Other) (values : List R) (bytes : List UInt8) : Prop where
  message : SoftToHard.processMessage false (softMessage header values) =
    (false, [.pair (some header) (.blob bytes)])
  stream : ∃ iterations b,
    MsgToBytes.processMessage iterations MsgToBytes.initial (softMessage header values) = .ok b ∧
      ∀ calls, Delivers bytes (MsgToBytes.works calls b).1
        ((MsgToBytes.works calls b).2.queue = [])
  chain : ∀ calls c, Transition.run Chain.step (.start values) calls = some c →
    Delivers bytes c.bytes (c.softbits = [] ∧ c.bits = [])
  drains : ∃ calls c, Transition.run Chain.step (.start values) calls = some c ∧
    c.softbits = [] ∧ c.bits = []

/-- The soft bits of bytes are converted back, however the blocks are called. -/
structure Inverts (header : Header Other) (n0 : R) (bytes : List UInt8) : Prop where
  converts : ∀ calls e, Transition.run (Expansion.step n0) (.start bytes) calls = some e →
    e.bytes = [] → Converts header e.softbits bytes
  drains : ∃ calls e, Transition.run (Expansion.step n0) (.start bytes) calls = some e ∧
    e.bytes = []

/-- Bits that a counter with 2 ^ 32 values finds at every position, in a number of bytes that
it can count. -/
def Repeats (bits : List Bool) : Prop :=
  bits.length < 8 * size32 ∧ ∀ k < bits.length, bits[k]? = bits[k % size32]?

variable {header : Header Other} {values : List R}

section Message

theorem SoftToHard.processMessage_eq (hbytes : 8 ∣ values.length) :
    processMessage false (softMessage header values) =
      (false, [.pair (some header) (.blob (toBytes (values.map hardDecision)))]) := by
  have hwhole : ¬ values.length % 8 > 0 := by omega
  rw [← map_byteValue]
  simp [processMessage, softMessage, Data.f32vectorData, hwhole]

end Message

section Stream

namespace MsgToBytes

theorem divideCeil_of_dvd {n : Nat} (hbytes : 8 ∣ n) : divideCeil n 8 = n / 8 :=
  if_pos (Nat.mod_eq_zero_of_dvd hbytes)

theorem foldl_push (values : List R) (count : Nat) (queue : List UInt8) :
    (List.range count).foldl (fun queue i => queue ++ [byteValue values i]) queue =
      queue ++ (List.range count).map (byteValue values) := by
  induction count with
  | zero => simp
  | succ count ih => simp [List.range_succ, List.foldl_append, ih]

/-- The handler returns after the last byte if and only if its counter can count the bytes. -/
theorem processMessage_iff (hbytes : 8 ∣ values.length) {b : Block} :
    (∃ iterations, processMessage iterations initial (softMessage header values) = .ok b) ↔
      values.length < 8 * size32 ∧
        b = { queue := toBytes (wrapped (values.map hardDecision)), stop := false } := by
  have hcount := divideCeil_of_dvd hbytes
  have hsmall : values.length / 8 < size32 ↔ values.length < 8 * size32 := by omega
  have hloop : ∀ queue : List UInt8,
      (∃ iterations, loop size32 1 (divideCeil values.length 8) Fault.running
        (fun i queue => .ok (queue ++ [byteValue values i])) iterations 0 [] = .ok queue) ↔
      values.length < 8 * size32 ∧ queue = toBytes (wrapped (values.map hardDecision)) := by
    intro queue
    rw [exists_loop_iff (by decide), hcount, foldl_push, map_byteValue, hsmall]
    exact Iff.rfl
  constructor
  · rintro ⟨iterations, hprocess⟩
    obtain ⟨queue, hqueue, rfl⟩ := except_map_ok hprocess
    obtain ⟨hlength, rfl⟩ := (hloop queue).mp ⟨iterations, hqueue⟩
    exact ⟨hlength, rfl⟩
  · rintro ⟨hlength, rfl⟩
    obtain ⟨iterations, hqueue⟩ := (hloop _).mpr ⟨hlength, rfl⟩
    exact ⟨iterations, congrArg (Except.map _) hqueue⟩

theorem drain_eq (count : Nat) (queue : List UInt8) :
    drain count queue = (queue.take count, queue.drop count) := by
  induction count generalizing queue with
  | zero => rfl
  | succ count ih =>
      cases queue with
      | nil => rfl
      | cons byte rest => simp [drain, ih]

theorem work_eq (b : Block) (noutputItems : Nat) :
    (work b noutputItems).1.items = b.queue.take noutputItems ∧
      (work b noutputItems).2.queue = b.queue.drop noutputItems := by
  unfold work
  split
  next hended =>
    rw [List.length_eq_zero_iff.mp hended.2]
    exact ⟨List.take_nil.symm, List.drop_nil.symm⟩
  next =>
    rw [drain_eq]
    exact ⟨rfl, rfl⟩

/-- What has been put out and what still waits are the bytes of before. -/
theorem works_append (calls : List Nat) (b : Block) :
    (works calls b).1 ++ (works calls b).2.queue = b.queue := by
  induction calls generalizing b with
  | nil => rfl
  | cons noutputItems rest ih =>
      obtain ⟨hitems, hqueue⟩ := work_eq b noutputItems
      rw [works]
      simp only [List.append_assoc, ih]
      rw [hitems, hqueue, List.take_append_drop]

theorem works_fst_of_drained {calls : List Nat} {b : Block}
    (hdrained : (works calls b).2.queue = []) : (works calls b).1 = b.queue := by
  have hall := works_append calls b
  rwa [hdrained, List.append_nil] at hall

theorem exists_drained (b : Block) : ∃ calls, (works calls b).2.queue = [] :=
  ⟨[b.queue.length], (work_eq b _).2.trans (List.drop_length)⟩

theorem stream_iff (hbytes : 8 ∣ values.length) {bytes : List UInt8} :
    (∃ iterations b, processMessage iterations initial (softMessage header values) = .ok b ∧
      ∀ calls, Delivers bytes (works calls b).1 ((works calls b).2.queue = [])) ↔
      values.length < 8 * size32 ∧ bytes = toBytes (wrapped (values.map hardDecision)) := by
  constructor
  · rintro ⟨iterations, b, hprocess, hdelivers⟩
    obtain ⟨hlength, rfl⟩ := (processMessage_iff hbytes).mp ⟨iterations, hprocess⟩
    obtain ⟨calls, hdrained⟩ := exists_drained
      { queue := toBytes (wrapped (values.map hardDecision)), stop := false }
    have hout := (hdelivers calls).2 hdrained
    exact ⟨hlength, hout.symm.trans (works_fst_of_drained hdrained)⟩
  · rintro ⟨hlength, rfl⟩
    obtain ⟨iterations, hprocess⟩ := (processMessage_iff hbytes).mpr ⟨hlength, rfl⟩
    exact ⟨iterations, _, hprocess, fun calls =>
      ⟨⟨_, works_append calls _⟩, works_fst_of_drained⟩⟩

end MsgToBytes

end Stream

namespace Chain

/-- The bytes that the soft bits inside the chain and its output are. -/
def total (c : Chain R) : List UInt8 :=
  c.bytes ++ toBytes ((c.bits ++ c.softbits.map hardDecisionByte).map lowBit)

theorem total_start (values : List R) :
    (start values).total = toBytes (values.map hardDecision) := by
  have hbits : lowBit ∘ (hardDecisionByte : R → UInt8) = hardDecision :=
    funext lowBit_hardDecisionByte
  simp [total, start, hbits]

theorem total_step {c next : Chain R} {call : Call} (hstep : c.step call = some next) :
    next.total = c.total := by
  cases call with
  | softbitToBit noutputItems =>
      obtain ⟨hinside, heq⟩ := Option.ite_none_right_eq_some.mp hstep
      obtain rfl := Option.some.inj heq
      simp only [total, SoftbitToBit.work_eq hinside, List.append_assoc, ← List.map_append,
        List.take_append_drop]
  | packBits noutputItems =>
      obtain ⟨hinside, heq⟩ := Option.ite_none_right_eq_some.mp hstep
      obtain rfl := Option.some.inj heq
      have hwhole : 8 ∣ ((c.bits.take (8 * noutputItems)).map lowBit).length := by
        rw [List.length_map, List.length_take, Nat.min_eq_left hinside]
        exact Nat.dvd_mul_right _ _
      simp only [total, PackBits.work_eq hinside, List.append_assoc]
      rw [← toBytes_append _ hwhole, ← List.map_append, ← List.append_assoc,
        List.take_append_drop]

theorem total_run {values : List R} {calls : List Call} {c : Chain R}
    (hrun : Transition.run step (start values) calls = some c) :
    c.total = toBytes (values.map hardDecision) :=
  (Transition.run_constant (fun _ _ _ => total_step) hrun).trans (total_start values)

theorem delivers_of_run {values : List R} {calls : List Call} {c : Chain R}
    (hrun : Transition.run step (start values) calls = some c) :
    Delivers (toBytes (values.map hardDecision)) c.bytes (c.softbits = [] ∧ c.bits = []) := by
  have htotal := total_run hrun
  refine ⟨⟨_, htotal⟩, ?_⟩
  rintro ⟨hsoftbits, hbits⟩
  rw [← htotal, total, hsoftbits, hbits]
  simp [toBytes]

/-- Converting everything and packing everything leaves nothing behind. -/
theorem exists_drained (hbytes : 8 ∣ values.length) :
    ∃ calls c, Transition.run step (start values) calls = some c ∧
      c.softbits = [] ∧ c.bits = [] := by
  have hwhole : 8 * (values.length / 8) = values.length := Nat.mul_div_cancel' hbytes
  let bits := SoftbitToBit.work (softbit values) values.length
  let converted : Chain R := { softbits := values.drop values.length, bits := bits, bytes := [] }
  let packed : Chain R :=
    { softbits := values.drop values.length
      bits := bits.drop (8 * (values.length / 8))
      bytes := [] ++ PackBits.work (fun i => bits[i]?.getD 0) (values.length / 8) }
  have hbits : bits.length = values.length := by
    simp [bits, SoftbitToBit.work]
  have hconvert : (start values).step (.softbitToBit values.length) = some converted :=
    if_pos le_rfl
  have hpack : converted.step (.packBits (values.length / 8)) = some packed :=
    if_pos (by rw [hwhole, hbits])
  refine ⟨[.softbitToBit values.length, .packBits (values.length / 8)], packed, ?_,
    List.drop_length, ?_⟩
  · rw [Transition.run, hconvert, Option.bind_some, Transition.run, hpack]
    rfl
  · show bits.drop (8 * (values.length / 8)) = []
    rw [hwhole, ← hbits, List.drop_length]

end Chain

/-- The three converters give the same bytes for exactly the soft bits whose decisions repeat. -/
theorem converts_iff (hbytes : 8 ∣ values.length) {bytes : List UInt8} :
    Converts header values bytes ↔
      bytes = toBytes (values.map hardDecision) ∧ Repeats (values.map hardDecision) := by
  have hlength : (values.map hardDecision).length = values.length := List.length_map _
  have hwhole : 8 ∣ (values.map hardDecision).length := hlength ▸ hbytes
  rw [Repeats, hlength, ← hlength, ← wrapped_eq_iff, hlength]
  constructor
  · intro hconverts
    have hmessage := hconverts.message
    rw [SoftToHard.processMessage_eq hbytes] at hmessage
    obtain ⟨hcount, hstream⟩ := (MsgToBytes.stream_iff hbytes).mp hconverts.stream
    obtain rfl : toBytes (values.map hardDecision) = bytes := by
      simpa using hmessage
    have hbits := congrArg ofBytes hstream
    rw [ofBytes_toBytes hwhole, ofBytes_toBytes (by rwa [length_wrapped])] at hbits
    exact ⟨rfl, hcount, hbits.symm⟩
  · rintro ⟨rfl, hcount, hwrapped⟩
    exact
      { message := SoftToHard.processMessage_eq hbytes
        stream := (MsgToBytes.stream_iff hbytes).mpr ⟨hcount, by rw [hwrapped]⟩
        chain := fun calls c hrun => Chain.delivers_of_run hrun
        drains := Chain.exists_drained hbytes }

namespace Expansion

variable {n0 : R}

/-- The soft bits of a byte. -/
def expanded (n0 : R) (byte : UInt8) : List R :=
  (List.range 8).map fun j => createFromBit (extractBitLeft byte.toNat j) n0

theorem work_eq {bytes : List UInt8} {noutputItems : Nat}
    (hinside : noutputItems / 8 ≤ bytes.length) :
    ByteToSoftbits.work n0 (fun i => bytes[i]?.getD 0) noutputItems =
      (bytes.take (noutputItems / 8)).flatMap (expanded n0) := by
  have hread := map_range_getD hinside 0 (expanded n0)
  rw [List.flatMap_def, ← hread, ← List.flatMap_def]
  rfl

/-- The soft bits of the output and of the bytes that wait. -/
def total (n0 : R) (e : Expansion R) : List R := e.softbits ++ e.bytes.flatMap (expanded n0)

theorem total_step {e next : Expansion R} {noutputItems : Nat}
    (hstep : e.step n0 noutputItems = some next) : next.total n0 = e.total n0 := by
  obtain ⟨⟨_, hinside⟩, heq⟩ := Option.ite_none_right_eq_some.mp hstep
  obtain rfl := Option.some.inj heq
  simp only [total, work_eq hinside, List.append_assoc]
  rw [← List.flatMap_append, List.take_append_drop]

theorem total_run {bytes : List UInt8} {calls : List Nat} {e : Expansion R}
    (hrun : Transition.run (step n0) (start bytes) calls = some e) :
    e.total n0 = bytes.flatMap (expanded n0) :=
  Transition.run_constant (fun _ _ _ => total_step) hrun

theorem softbits_of_run {bytes : List UInt8} {calls : List Nat} {e : Expansion R}
    (hrun : Transition.run (step n0) (start bytes) calls = some e) (hdrained : e.bytes = []) :
    e.softbits = bytes.flatMap (expanded n0) := by
  rw [← total_run hrun, total, hdrained, List.flatMap_nil, List.append_nil]

theorem exists_drained (bytes : List UInt8) :
    ∃ calls e, Transition.run (step n0) (start bytes) calls = some e ∧ e.bytes = [] := by
  have hcount : 8 * bytes.length / 8 = bytes.length := Nat.mul_div_cancel_left _ (Nat.succ_pos 7)
  let drained : Expansion R :=
    { bytes := bytes.drop (8 * bytes.length / 8)
      softbits := [] ++ ByteToSoftbits.work n0 (fun i => bytes[i]?.getD 0) (8 * bytes.length) }
  have hstep : (start bytes).step n0 (8 * bytes.length) = some drained :=
    if_pos ⟨Nat.mul_mod_right _ _, hcount.le⟩
  refine ⟨[8 * bytes.length], drained, ?_, ?_⟩
  · rw [Transition.run, hstep]
    rfl
  · show bytes.drop (8 * bytes.length / 8) = []
    rw [hcount, List.drop_length]

end Expansion

end Agree

section Exact

variable {K : Type} [Field K] [LinearOrder K] [IsStrictOrderedRing K] [FloorRing K]

open scoped ExactNumbers

theorem hardDecision_createFromBit {n0 : K} (hn0 : 0 < n0) (bit : Bool) :
    hardDecision (createFromBit bit n0) = bit := by
  cases bit with
  | false =>
      apply decide_eq_false
      have hneg : ((2 : Nat) : K) * -1 < 0 := by norm_num
      exact (div_neg_of_neg_of_pos hneg hn0).not_ge
  | true =>
      apply decide_eq_true
      have hpos : 0 < ((2 : Nat) : K) * 1 := by norm_num
      exact (div_pos hpos hn0).le

theorem hardDecision_expanded {n0 : K} (hn0 : 0 < n0) (byte : UInt8) :
    (Expansion.expanded n0 byte).map hardDecision = low 8 byte.toBitVec := by
  apply List.ext_getElem
  · simp [Expansion.expanded]
  · intro j hj _
    have hlt : j < 8 := by simpa [Expansion.expanded] using hj
    simp only [Expansion.expanded, List.getElem_map, List.getElem_range]
    rw [hardDecision_createFromBit hn0, getElem_low,
      Ambiguity.extractBitLeft_eq_testBit _ (Nat.le_of_lt_succ hlt)]
    exact BitVec.testBit_toNat byte.toBitVec

theorem hardDecision_flatMap {n0 : K} (hn0 : 0 < n0) (bytes : List UInt8) :
    (bytes.flatMap (Expansion.expanded n0)).map hardDecision = ofBytes bytes := by
  rw [List.map_flatMap]
  exact List.flatMap_congr fun byte _ => hardDecision_expanded hn0 byte

variable {Other : Type}

omit [IsStrictOrderedRing K] in
theorem exists_bytes_iff (header : Header Other) {values : List K} (hbytes : 8 ∣ values.length) :
    (∃ bytes, bytes.length = values.length / 8 ∧ Converts header values bytes) ↔
      Repeats (values.map hardDecision) := by
  constructor
  · rintro ⟨bytes, _, hconverts⟩
    exact ((converts_iff hbytes).mp hconverts).2
  · intro hrepeats
    exact ⟨_, by rw [length_toBytes, List.length_map], (converts_iff hbytes).mpr ⟨rfl, hrepeats⟩⟩

theorem inverts_iff (header : Header Other) {n0 : K} (hn0 : 0 < n0) (bytes : List UInt8) :
    Inverts header n0 bytes ↔ Repeats (ofBytes bytes) := by
  have hdecisions := hardDecision_flatMap hn0 bytes
  have hwhole : 8 ∣ (bytes.flatMap (Expansion.expanded n0)).length := by
    rw [← List.length_map (hardDecision : K → Bool), hdecisions, length_ofBytes]
    exact Nat.dvd_mul_right _ _
  have hconverts : Converts header (bytes.flatMap (Expansion.expanded n0)) bytes ↔
      Repeats (ofBytes bytes) := by
    rw [converts_iff hwhole, hdecisions, toBytes_ofBytes]
    exact and_iff_right rfl
  constructor
  · intro hinverts
    obtain ⟨calls, e, hrun, hdrained⟩ := hinverts.drains
    have hlast := hinverts.converts calls e hrun hdrained
    rw [Expansion.softbits_of_run hrun hdrained] at hlast
    exact hconverts.mp hlast
  · intro hrepeats
    refine ⟨fun calls e hrun hdrained => ?_, Expansion.exists_drained bytes⟩
    rw [Expansion.softbits_of_run hrun hdrained]
    exact hconverts.mpr hrepeats

/-- The converters agree on a whole number of bytes, and bring back the bytes that were turned
into soft bits, exactly as long as the narrow index and the counter of
`softbits_msg_to_bytes_b` do not change a bit. -/
theorem converters_agree_iff (header : Header Other) :
    (∀ values : List K, 8 ∣ values.length →
      ((∃ bytes, bytes.length = values.length / 8 ∧ Converts header values bytes) ↔
        Repeats (values.map hardDecision))) ∧
    ∀ (bytes : List UInt8) (n0 : K), 0 < n0 →
      (Inverts header n0 bytes ↔ Repeats (ofBytes bytes)) :=
  ⟨fun _ hbytes => exists_bytes_iff header hbytes,
    fun bytes _ hn0 => inverts_iff header hn0 bytes⟩

end Exact

section Index

/-- Up to 2 ^ 32 bits are found at their own positions. -/
theorem Repeats.of_length_le {bits : List Bool} (hlength : bits.length ≤ size32) :
    Repeats bits := by
  refine ⟨hlength.trans_lt (by decide), fun k hk => ?_⟩
  rw [Nat.mod_eq_of_lt (hk.trans_le hlength)]

/-- A bit behind 2 ^ 32 others that differs from the first one is not found. -/
theorem not_repeats_append {first rest : List Bool} (hlength : first.length = size32)
    (hrest : rest ≠ []) (hdiffer : first[0]? ≠ rest[0]?) : ¬ Repeats (first ++ rest) := by
  rintro ⟨_, hall⟩
  have hinside : size32 < (first ++ rest).length := by
    rw [List.length_append, hlength]
    exact Nat.lt_add_of_pos_right (List.length_pos_iff.mpr hrest)
  have hfound := hall size32 hinside
  rw [Nat.mod_self, List.getElem?_append_right hlength.le, hlength, Nat.sub_self,
    List.getElem?_append_left (by rw [hlength]; decide)] at hfound
  exact hdiffer hfound.symm

end Index

section Run

open scoped ExactNumbers

/-- Eight soft bits with two zeros, and a byte. -/
theorem converters_agree_short :
    (∃ bytes : List UInt8, bytes.length = 1 ∧
      Converts ([] : Header Unit) [3, 0, -1, 2, -2, 0, 1, (-1 : ℚ)] bytes) ∧
    Inverts ([] : Header Unit) (1 / 2 : ℚ) [0x9e] := by
  obtain ⟨hagree, hinverts⟩ := converters_agree_iff (K := ℚ) ([] : Header Unit)
  constructor
  · exact (hagree [3, 0, -1, 2, -2, 0, 1, -1] (by decide)).mpr (.of_length_le (by decide))
  · exact (hinverts [0x9e] (1 / 2) (by norm_num)).mpr (.of_length_le (by decide))

/-- Behind 2 ^ 32 ones the converter from messages to a stream reads the first one again. -/
theorem converters_disagree :
    ¬ ∃ bytes : List UInt8,
      bytes.length = (List.replicate size32 1 ++ List.replicate 8 (-1) : List ℚ).length / 8 ∧
      Converts ([] : Header Unit)
        (List.replicate size32 1 ++ List.replicate 8 (-1) : List ℚ) bytes := by
  have hwhole : 8 ∣ (List.replicate size32 1 ++ List.replicate 8 (-1) : List ℚ).length := by
    rw [List.length_append, List.length_replicate, List.length_replicate]
    decide
  rw [exists_bytes_iff _ hwhole, List.map_append, List.map_replicate, List.map_replicate]
  have hone : hardDecision (1 : ℚ) = true := by decide +kernel
  have hminus : hardDecision (-1 : ℚ) = false := by decide +kernel
  rw [hone, hminus]
  apply not_repeats_append List.length_replicate (by simp)
  rw [List.getElem?_replicate_of_lt (by decide), List.getElem?_replicate_of_lt (by decide)]
  decide

end Run

end GrCcsds.Converters
