import Mathlib.Data.List.Basic
import GrCcsds.Messages.Delivery

/-! # Data and metadata of the blob source

The source of blobs keeps bytes and headers in two queues that are drained in
unrelated steps. Without the headers it is a plain source. The headers that wait
are those of the messages whose first byte has not been output, so every header
is read exactly when its tags are due.
-/

namespace GrCcsds.Messages

open Foundation Utils

namespace BlobSource

variable {Other Float : Type} {c : BlobConfig}

/-- The source without its headers. -/
def source (s : BlobSource Other) : Source UInt8 where
  queue := s.queue
  stop := s.stop

theorem processMessage_source (s : BlobSource Other) (msg : Message Other Float) :
    (s.processMessage c msg).source = s.source.processMessage c.blobLen Data.blobData msg := by
  unfold processMessage Source.processMessage
  split
  next hstop => rw [if_pos (show s.source.stop = true from hstop)]
  next hstop =>
    rw [if_neg (show ¬ s.source.stop = true from hstop)]
    cases msg with
    | eof => rfl
    | notPair => rfl
    | pair header data =>
        dsimp only
        cases receive c.blobLen Data.blobData (Message.pair header data) with
        | none => rfl
        | some frame => rfl

theorem iteration_source {s next : BlobSource Other} {byte : UInt8} {tags : List (Tag Other)}
    (hiteration : s.iteration c = some (byte, tags, next)) :
    s.source.iteration = some (byte, next.source) := by
  obtain ⟨⟨tags, metadataQueue⟩, -, hqueue⟩ := Option.bind_eq_some_iff.mp hiteration
  dsimp only at hqueue
  split at hqueue
  next => cases hqueue
  next byte rest hcons =>
    cases hqueue
    simp [Source.iteration, source, hcons]

theorem workLoop_source {count : Nat} {s last : BlobSource Other} {bytes : List UInt8}
    {tags : List (Tag Other)} (hloop : s.workLoop c count = some (bytes, tags, last)) :
    s.source.workLoop count = some (bytes, last.source) := by
  induction count generalizing s bytes tags with
  | zero =>
      cases hloop
      rfl
  | succ count ih =>
      obtain ⟨⟨byte, tags, next⟩, hiteration, hrest⟩ := Option.bind_eq_some_iff.mp hloop
      obtain ⟨⟨bytes, moreTags, last⟩, hnext, hresult⟩ := Option.map_eq_some_iff.mp hrest
      cases hresult
      simp only [Source.workLoop, iteration_source hiteration, Option.bind_some, ih hnext,
        Option.map_some]

theorem work_source {s next : BlobSource Other} {noutputItems : Nat} {result : WorkResult UInt8}
    {tags : List (Tag Other)} (hwork : s.work c noutputItems = some (result, tags, next)) :
    s.source.work noutputItems = some (result, next.source) := by
  unfold work at hwork
  unfold Source.work
  split at hwork
  next hend =>
    cases hwork
    exact if_pos hend
  next hend =>
    obtain ⟨⟨bytes, tags, last⟩, hloop, hresult⟩ := Option.map_eq_some_iff.mp hwork
    cases hresult
    have hplain : ¬ (s.source.stop = true ∧ s.source.queue.length = 0) := hend
    rw [if_neg hplain]
    exact congrArg (Option.map _) (workLoop_source hloop)

/-- The tags that belong to a position of the output. -/
def tagsAt (c : BlobConfig) (messages : List (Header Other × List UInt8)) (position : Nat) :
    List (Tag Other) :=
  if position % c.blobLen = 0 then
    match messages[position / c.blobLen]? with
    | some (header, _) => messageTags c position header
    | none => []
  else []

/-- The first byte of a message carries the length tag and the entries of the header. -/
theorem tagsAt_first (hlen : 1 ≤ c.blobLen) {messages : List (Header Other × List UInt8)}
    {k : Nat} {header : Header Other} {bytes : List UInt8}
    (hmessage : messages[k]? = some (header, bytes)) :
    tagsAt c messages (k * c.blobLen) = messageTags c (k * c.blobLen) header := by
  rw [tagsAt, if_pos (Nat.mul_mod_left _ _), Nat.mul_div_cancel _ hlen, hmessage]

theorem tagsAt_inside {messages : List (Header Other × List UInt8)} {position : Nat}
    (hinside : position % c.blobLen ≠ 0) : tagsAt c messages position = [] :=
  if_neg hinside

/-- Further messages do not change the tags of the bytes that are there. -/
theorem tagsAt_append {messages : List (Header Other × List UInt8)} {position : Nat}
    (hposition : position < messages.length * c.blobLen)
    (more : List (Header Other × List UInt8)) :
    tagsAt c (messages ++ more) position = tagsAt c messages position := by
  have hindex : position / c.blobLen < messages.length :=
    Nat.div_lt_of_lt_mul (Nat.mul_comm .. ▸ hposition)
  rw [tagsAt, tagsAt, List.getElem?_append_left hindex]

/-- The headers that wait are those of the messages that have not begun. -/
def Waiting (c : BlobConfig) (messages : List (Header Other × List UInt8))
    (s : BlobSource Other) : Prop :=
  s.metadataQueue = (messages.map Prod.fst).drop (divideCeil s.numBytesCopied c.blobLen)

variable {messages : List (Header Other × List UInt8)} {s : BlobSource Other}

theorem nextTags_eq (hwaiting : s.Waiting c messages)
    (hbytes : s.numBytesCopied < messages.length * c.blobLen) :
    s.nextTags c = some (tagsAt c messages s.numBytesCopied,
      (messages.map Prod.fst).drop (divideCeil (s.numBytesCopied + 1) c.blobLen)) := by
  have hindex : s.numBytesCopied / c.blobLen < messages.length :=
    Nat.div_lt_of_lt_mul (Nat.mul_comm .. ▸ hbytes)
  rw [divideCeil_succ, nextTags, hwaiting, tagsAt, divideCeil]
  split
  next hfirst =>
    have hheader : s.numBytesCopied / c.blobLen < (messages.map Prod.fst).length := by
      simpa using hindex
    rw [List.drop_eq_getElem_cons hheader, List.getElem?_eq_getElem hindex]
    simp
  next => rfl

theorem iteration_eq (hwaiting : s.Waiting c messages)
    (htotal : s.numBytesCopied + s.queue.length = messages.length * c.blobLen) {byte : UInt8}
    {rest : List UInt8} (hqueue : s.queue = byte :: rest) :
    s.iteration c = some (byte, tagsAt c messages s.numBytesCopied,
      { s with
        queue := rest
        metadataQueue :=
          (messages.map Prod.fst).drop (divideCeil (s.numBytesCopied + 1) c.blobLen)
        numBytesCopied := s.numBytesCopied + 1 }) := by
  have hbytes : s.numBytesCopied < messages.length * c.blobLen := by
    rw [← htotal, hqueue]
    exact Nat.lt_add_of_pos_right (Nat.succ_pos _)
  rw [iteration, nextTags_eq hwaiting hbytes, Option.bind_some, hqueue]

/-- The loop never reads an empty queue, and adds the tags of the positions it outputs. -/
theorem workLoop_eq {count : Nat} (hwaiting : s.Waiting c messages)
    (htotal : s.numBytesCopied + s.queue.length = messages.length * c.blobLen)
    (hcount : count ≤ s.queue.length) :
    ∃ next, s.workLoop c count = some (s.queue.take count,
        (List.range' s.numBytesCopied count).flatMap (tagsAt c messages), next) ∧
      next.Waiting c messages ∧ next.numBytesCopied = s.numBytesCopied + count := by
  induction count generalizing s with
  | zero => exact ⟨s, rfl, hwaiting, rfl⟩
  | succ count ih =>
      cases hqueue : s.queue with
      | nil =>
          rw [hqueue] at hcount
          cases hcount
      | cons byte rest =>
          have hiteration := iteration_eq hwaiting htotal hqueue
          rw [hqueue, List.length_cons] at htotal hcount
          let next : BlobSource Other :=
            { s with
              queue := rest
              metadataQueue :=
                (messages.map Prod.fst).drop (divideCeil (s.numBytesCopied + 1) c.blobLen)
              numBytesCopied := s.numBytesCopied + 1 }
          have htotalNext : next.numBytesCopied + next.queue.length =
              messages.length * c.blobLen := by
            rw [← htotal]
            exact Nat.add_right_comm ..
          obtain ⟨last, hloop, hwaitingLast, hcopied⟩ :=
            ih (s := next) rfl htotalNext (Nat.le_of_succ_le_succ hcount)
          refine ⟨last, ?_, hwaitingLast, ?_⟩
          · rw [workLoop, hiteration, Option.bind_some]
            change Option.map _ (workLoop c count next) = _
            rw [hloop]
            rfl
          · rw [hcopied, Nat.add_comm count, ← Nat.add_assoc]

theorem processMessage_metadata (s : BlobSource Other) (msg : Message Other Float) :
    (s.processMessage c msg).metadataQueue = s.metadataQueue ++
      (if s.stop then [] else accepted c.blobLen Data.blobData [msg]).map Prod.fst := by
  unfold processMessage
  split
  next hstop => simp
  next hstop =>
    cases msg with
    | eof => simp [accepted]
    | notPair => simp [accepted, receive]
    | pair header data =>
        simp only [accepted, List.append_nil]
        split
        next hreceive => simp [hreceive]
        next hreceive => simp [hreceive]

theorem processMessage_numBytesCopied (s : BlobSource Other) (msg : Message Other Float) :
    (s.processMessage c msg).numBytesCopied = s.numBytesCopied := by
  unfold processMessage
  split
  next => rfl
  next =>
    split
    next => rfl
    next => split <;> rfl

/-- The source of blobs with what it has accepted, and the result and the tags
of each call of `work`. -/
structure Session (Other : Type) where
  source : BlobSource Other
  accepted : List (Header Other × List UInt8)
  calls : List (WorkResult UInt8 × List (Tag Other))

namespace Session

def initial : Session Other where
  source := .initial
  accepted := []
  calls := []

def step (c : BlobConfig) (s : Session Other) : Event Other Float → Option (Session Other)
  | .message msg =>
    some
      { s with
        source := s.source.processMessage c msg
        accepted := s.accepted ++
          if s.source.stop then [] else Messages.accepted c.blobLen Data.blobData [msg] }
  | .work noutputItems =>
    (s.source.work c noutputItems).map fun (result, tags, next) =>
      { s with source := next, calls := s.calls ++ [(result, tags)] }

/-- The session of the plain source. -/
def plain (s : Session Other) : Source.Session Other UInt8 where
  source := s.source.source
  accepted := s.accepted
  results := s.calls.map Prod.fst

theorem step_plain {s next : Session Other} {event : Event Other Float}
    (hstep : s.step c event = some next) :
    s.plain.step c.blobLen Data.blobData event = some next.plain := by
  cases event with
  | message msg =>
      cases hstep
      rw [Source.Session.step]
      simp only [plain, processMessage_source]
      rfl
  | work noutputItems =>
      obtain ⟨⟨result, tags, source⟩, hwork, rfl⟩ := Option.map_eq_some_iff.mp hstep
      rw [Source.Session.step]
      simp [plain, work_source hwork]

/-- Headers and bytes belong together, and each call adds the tags of the
positions that it outputs. -/
structure Aligned (c : BlobConfig) (s : Session Other) : Prop where
  conserved : s.plain.Conserved
  lengths : ∀ frame ∈ s.accepted, frame.2.length = c.blobLen
  copied : s.source.numBytesCopied = s.plain.out.length
  waiting : s.source.Waiting c s.accepted
  tags : ∀ i result tags, s.calls[i]? = some (result, tags) →
    tags = (List.range' (outputOf ((s.calls.take i).map Prod.fst)).length
      result.items.length).flatMap (tagsAt c s.accepted)

theorem aligned_initial : (initial : Session Other).Aligned c where
  conserved := Source.Session.conserved_initial
  lengths := fun _ hmem => nomatch hmem
  copied := rfl
  waiting := by simp [Waiting, initial, BlobSource.initial]
  tags := fun _ _ _ h => nomatch h

variable {s : Session Other}

/-- The bytes of the accepted messages are those that were output and those in the queue. -/
theorem Aligned.total (haligned : s.Aligned c) :
    s.source.numBytesCopied + s.source.queue.length = s.accepted.length * c.blobLen := by
  rw [← length_payloads haligned.lengths, haligned.copied, ← List.length_append]
  exact congrArg List.length haligned.conserved.items

theorem Aligned.message (haligned : s.Aligned c) (msg : Message Other Float) {next : Session Other}
    (hstep : s.step c (.message msg) = some next) : next.Aligned c := by
  have hconserved := haligned.conserved.message msg (step_plain hstep)
  have htotal := haligned.total
  cases hstep
  refine ⟨hconserved, ?_, ?_, ?_, ?_⟩
  · intro frame hframe
    rcases List.mem_append.mp hframe with hold | hnew
    · exact haligned.lengths frame hold
    · split at hnew
      next => cases hnew
      next => exact length_of_mem_accepted hnew
  · exact (processMessage_numBytesCopied s.source msg).trans haligned.copied
  · have hbegun : divideCeil s.source.numBytesCopied c.blobLen ≤
        (s.accepted.map Prod.fst).length := by
      rw [List.length_map]
      apply divideCeil_le_of_le_mul
      rw [← htotal]
      exact Nat.le_add_right _ _
    rw [Waiting, processMessage_metadata, processMessage_numBytesCopied, List.map_append,
      List.drop_append_of_le_length hbegun, haligned.waiting]
  · intro i result tags hcall
    have hbound : (outputOf ((s.calls.take i).map Prod.fst)).length + result.items.length ≤
        s.accepted.length * c.blobLen := by
      have hresult : s.plain.results[i]? = some result := by
        simp [plain, hcall]
      have hle := length_output_le hresult
      rw [show s.plain.results.take i = (s.calls.take i).map Prod.fst from List.map_take.symm,
        show outputOf s.plain.results = s.plain.out from rfl, ← haligned.copied] at hle
      exact Nat.le_trans hle (htotal ▸ Nat.le_add_right _ _)
    rw [haligned.tags i result tags hcall]
    apply List.flatMap_congr
    intro position hposition
    obtain ⟨-, hlt⟩ := List.mem_range'_1.mp hposition
    exact (tagsAt_append (Nat.lt_of_lt_of_le hlt hbound) _).symm

/-- What a call of `work` adds to the session. -/
theorem Aligned.concat (haligned : s.Aligned c) {source : BlobSource Other}
    {result : WorkResult UInt8} {tags : List (Tag Other)} {noutputItems : Nat}
    (hwork : s.source.work c noutputItems = some (result, tags, source))
    (hcopied : source.numBytesCopied = s.source.numBytesCopied + result.items.length)
    (hwaiting : source.Waiting c s.accepted)
    (htags : tags =
      (List.range' s.source.numBytesCopied result.items.length).flatMap (tagsAt c s.accepted)) :
    ({ s with source, calls := s.calls ++ [(result, tags)] } : Session Other).Aligned c := by
  have hstep : s.step c (.work noutputItems : Event Other Unit) =
      some { s with source, calls := s.calls ++ [(result, tags)] } := by
    rw [step, hwork]
    rfl
  obtain ⟨next, hplain, hconserved⟩ : ∃ next, s.plain.step c.blobLen Data.blobData
      (.work noutputItems : Event Other Unit) = some next ∧ next.Conserved :=
    haligned.conserved.work noutputItems
  cases hplain.symm.trans (step_plain hstep)
  refine ⟨hconserved, haligned.lengths, ?_, hwaiting, ?_⟩
  · rw [hcopied, haligned.copied, ← List.length_append]
    simp [plain, Source.Session.out]
  · intro i other otherTags hcall
    rcases getElem?_concat_cases hcall with ⟨hbefore, htake⟩ | ⟨hlast, htake⟩
    · rw [htake]
      exact haligned.tags i other otherTags hbefore
    · cases hlast
      rw [htake, htags, haligned.copied]
      rfl

theorem Aligned.work (haligned : s.Aligned c) (noutputItems : Nat) :
    ∃ next, s.step c (.work noutputItems : Event Other Float) = some next ∧ next.Aligned c := by
  by_cases hend : s.source.stop = true ∧ s.source.queue.length = 0
  · have hwork : s.source.work c noutputItems = some (.endOfStream, [], s.source) := if_pos hend
    refine ⟨_, ?_, haligned.concat hwork rfl haligned.waiting rfl⟩
    rw [step, hwork]
    rfl
  · have hcount : pickSmaller noutputItems s.source.queue.length ≤ s.source.queue.length := by
      simp
    obtain ⟨last, hloop, hwaiting, hcopied⟩ :=
      workLoop_eq haligned.waiting haligned.total hcount
    have hlength := List.length_take_of_le hcount
    rw [← hlength] at hcopied
    have hwork : s.source.work c noutputItems = some
        (.produced (s.source.queue.take (pickSmaller noutputItems s.source.queue.length)),
          (List.range' s.source.numBytesCopied
            (pickSmaller noutputItems s.source.queue.length)).flatMap (tagsAt c s.accepted),
          last) := by
      rw [BlobSource.work, if_neg hend, hloop]
      rfl
    refine ⟨_, ?_, haligned.concat hwork hcopied hwaiting ?_⟩
    · rw [step, hwork]
      rfl
    · rw [WorkResult.items, hlength]

theorem exists_step (haligned : s.Aligned c) (event : Event Other Float) :
    ∃ next, s.step c event = some next ∧ next.Aligned c := by
  cases event with
  | message msg => exact ⟨_, rfl, haligned.message msg rfl⟩
  | work noutputItems => exact haligned.work noutputItems

/-- Whatever is delivered and however `work` is called, `work` never reads an
empty queue. What it has output and what is in the queue are the bytes of the
accepted messages. Each call adds the tags of the positions it outputs, which
are those of a message at its first byte and none elsewhere, and the end of the
stream is reported after the last byte. A call with space for the queue outputs
all of it. -/
theorem data_and_metadata_aligned (hlen : 1 ≤ c.blobLen) (events : List (Event Other Float)) :
    ∃ s, Transition.run (step c) initial events = some s ∧
      s.accepted = Messages.accepted c.blobLen Data.blobData (events.filterMap Event.delivered) ∧
      s.plain.out ++ s.source.queue = payloads s.accepted ∧
      (∀ i result tags, s.calls[i]? = some (result, tags) →
        tags = (List.range' (outputOf ((s.calls.take i).map Prod.fst)).length
          result.items.length).flatMap (tagsAt c s.accepted)) ∧
      (∀ k header bytes, s.accepted[k]? = some (header, bytes) →
        tagsAt c s.accepted (k * c.blobLen) = messageTags c (k * c.blobLen) header) ∧
      (∀ position, position % c.blobLen ≠ 0 → tagsAt c s.accepted position = []) ∧
      (∀ i tags, s.calls[i]? = some (.endOfStream, tags) →
        outputOf ((s.calls.take i).map Prod.fst) = payloads s.accepted) ∧
      ∀ noutputItems, s.source.queue.length ≤ noutputItems →
        ∃ next, s.step c (.work noutputItems : Event Other Float) = some next ∧
          next.plain.out = payloads s.accepted := by
  obtain ⟨s, hrun, haligned⟩ := Transition.exists_run (fun _ event h => exists_step h event)
    events (aligned_initial (c := c))
  have hplain := Transition.run_map (fun _ _ _ h => step_plain h) hrun
  refine ⟨s, hrun, ?_, haligned.conserved.items, haligned.tags,
    fun _ _ _ hmessage => tagsAt_first hlen hmessage, fun _ => tagsAt_inside, ?_, ?_⟩
  · have haccepted := Source.Session.accepted_of_run hplain
    exact haccepted
  · intro i tags hcall
    have hresult : s.plain.results[i]? = some .endOfStream := by
      simp [plain, hcall]
    rw [List.map_take]
    exact haligned.conserved.complete i hresult
  · intro noutputItems hspace
    obtain ⟨next, hnext, halignedNext⟩ := exists_step haligned (.work noutputItems)
    exact ⟨next, hnext, Source.Session.out_of_drained halignedNext.conserved hspace
      (step_plain hnext)⟩

/-- Messages of two bytes, one of them too long and one behind EOF, between calls of `work`. -/
def interleaved : List (Event Unit Unit) :=
  let header (frame : Nat) : Header Unit := [(.symbol "frame_number", .uint64 frame)]
  [.message (.pair (some (header 0)) (.blob [1, 2])), .work 1,
    .message (.pair (some (header 1)) (.blob [5, 6, 7])),
    .message (.pair (some (header 2)) (.blob [3, 4])), .message .eof, .work 2,
    .message (.pair (some (header 3)) (.blob [8, 9])), .work 9, .work 1]

theorem data_and_metadata_aligned_interleaved : ∃ s,
    Transition.run (step ⟨2, "packet_len"⟩) initial interleaved = some s ∧
      s.plain.out = [1, 2, 3, 4] ∧
      s.calls =
        [(.produced [1],
            [⟨0, .symbol "packet_len", .uint64 2⟩, ⟨0, .symbol "frame_number", .uint64 0⟩]),
          (.produced [2, 3],
            [⟨2, .symbol "packet_len", .uint64 2⟩, ⟨2, .symbol "frame_number", .uint64 2⟩]),
          (.produced [4], []), (.endOfStream, [])] := by
  obtain ⟨s, hrun, haccepted, -, -, -, -, hended, -⟩ :=
    data_and_metadata_aligned (c := ⟨2, "packet_len"⟩) (by decide) interleaved
  rw [haccepted] at hended
  cases hrun
  exact ⟨_, rfl, hended 3 [] rfl, rfl⟩

end Session
end BlobSource
end GrCcsds.Messages
