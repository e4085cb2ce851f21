import GrCcsds.FrameSync.Service
import GrCcsds.FrameSync.StreamStart

/-! # Frames in their order

On a stream that is in step with the blocks every search finds the ASM at the
same index and with the same ambiguity. The block then queues a frame for each
block, in its order, and although secondary frames come and go in the same
queue, the messages are these frames, each once, complete and in order.
-/

namespace GrCcsds.FrameSync

open Utils Foundation

variable {env : Platform} {cfg : Config} {index ambiguity : Nat}

/-- The frame that the search in a block finds. -/
def framePosition (cfg : Config) (index ambiguity block : Nat) : AsmPosition where
  offset := index + block * cfg.blockLen
  ambiguity := ambiguity
  sequence := block + 1

def framePositions (cfg : Config) (index ambiguity count : Nat) : List AsmPosition :=
  (List.range count).map (framePosition cfg index ambiguity)

theorem framePositions_succ (count : Nat) :
    framePositions cfg index ambiguity (count + 1) =
      framePositions cfg index ambiguity count ++ [framePosition cfg index ambiguity count] := by
  rw [framePositions, List.range_succ, List.map_append]
  rfl

theorem mem_framePositions {count : Nat} {pos : AsmPosition} :
    pos ∈ framePositions cfg index ambiguity count ↔
      ∃ block < count, pos = framePosition cfg index ambiguity block := by
  simp only [framePositions, List.mem_map, List.mem_range, eq_comm]

theorem framePosition_offset_lt {first second : Nat} (hlt : first < second) :
    (framePosition cfg index ambiguity first).offset <
      (framePosition cfg index ambiguity second).offset :=
  Nat.add_lt_add_left (Nat.mul_lt_mul_of_pos_right hlt cfg.blockLen_pos) index

/-- The frames follow each other in the stream. -/
theorem framePositions_pairwise (count : Nat) :
    (framePositions cfg index ambiguity count).Pairwise
      fun first second => first.offset < second.offset :=
  List.Pairwise.map _ (fun _ _ => framePosition_offset_lt) List.pairwise_lt_range

/-- The tasks of primary frames. -/
def primaryTasks (tasks : List (Task env)) : List (Task env) := tasks.filter fun t => t.primary

/-- The keys of secondary frames of later blocks. -/
def IsLater (cfg : Config) (index ambiguity count : Nat) (pos : AsmPosition) : Prop :=
  ∃ block, count ≤ block ∧ pos.key = (framePosition cfg index ambiguity block).key

theorem IsLater.le_offset {count : Nat} {pos : AsmPosition}
    (hlater : IsLater cfg index ambiguity count pos) :
    index + count * cfg.blockLen ≤ pos.offset := by
  obtain ⟨block, hle, hkey⟩ := hlater
  rw [(Prod.mk.inj hkey).1]
  exact Nat.add_le_add_left (Nat.mul_le_mul_right _ hle) index

/-- A queue with the primary frames of some blocks, and secondary frames of later blocks only. -/
structure Ordered (cfg : Config) (index ambiguity count : Nat) (published : List AsmPosition)
    (queue : List (Task env)) : Prop where
  frames : published ++ (primaryTasks queue).map Task.asmPos =
    framePositions cfg index ambiguity count
  later : ∀ t ∈ queue, t.primary = false → IsLater cfg index ambiguity count t.asmPos

namespace Ordered

variable {count : Nat} {published : List AsmPosition} {queue next : List (Task env)}

theorem offset_lt (hordered : Ordered cfg index ambiguity count published queue) {t : Task env}
    (ht : t ∈ queue) (hprimary : t.primary) : t.asmPos.offset < index + count * cfg.blockLen := by
  have hmem : t.asmPos ∈ framePositions cfg index ambiguity count := by
    rw [← hordered.frames]
    exact List.mem_append_right _ (List.mem_map_of_mem (List.mem_filter.mpr ⟨ht, hprimary⟩))
  obtain ⟨block, hlt, heq⟩ := mem_framePositions.mp hmem
  rw [heq]
  exact framePosition_offset_lt hlt

/-- The frame of the next block takes the place of a secondary frame. -/
theorem queuePrimary (hordered : Ordered cfg index ambiguity count published queue)
    (hnodup : (keys queue).Nodup)
    (hnext : queueFrameOutput cfg queue (framePosition cfg index ambiguity count) true =
      some next) : Ordered cfg index ambiguity (count + 1) published next := by
  have hprimary : ∀ t ∈ queue, t.primary →
      ¬ (framePosition cfg index ambiguity count).matches t.asmPos := by
    intro t ht hprimary hmatches
    have hkey := (AsmPosition.matches_iff _ _).mp hmatches
    have hlt := hordered.offset_lt ht hprimary
    rw [(Prod.mk.inj hkey).1] at hlt
    exact Nat.lt_irrefl _ hlt
  have hrest (remaining : List (Task env))
      (hframes : primaryTasks remaining = primaryTasks queue)
      (hlater : ∀ t ∈ remaining, t.primary = false →
        IsLater cfg index ambiguity (count + 1) t.asmPos) :
      Ordered cfg index ambiguity (count + 1) published
        (remaining ++ [newTask cfg (framePosition cfg index ambiguity count) true]) := by
    constructor
    · rw [primaryTasks, List.filter_append, List.filter_cons_of_pos rfl, List.filter_nil,
        ← primaryTasks, hframes, List.map_append, ← List.append_assoc, hordered.frames,
        framePositions_succ]
      rfl
    · intro t ht hsecondary
      rcases List.mem_append.mp ht with hold | hnew
      · exact hlater t hold hsecondary
      · rw [List.mem_singleton.mp hnew] at hsecondary
        cases hsecondary
  -- a secondary frame of this block is not one of a later block
  have hlaterOf {t : Task env} (ht : t ∈ queue) (hsecondary : t.primary = false)
      (hkey : t.asmPos.key ≠ (framePosition cfg index ambiguity count).key) :
      IsLater cfg index ambiguity (count + 1) t.asmPos := by
    obtain ⟨block, hle, heq⟩ := hordered.later t ht hsecondary
    refine ⟨block, Nat.lt_of_le_of_ne hle ?_, heq⟩
    rintro rfl
    exact hkey heq
  obtain ⟨-, ⟨hnone, rfl⟩ | ⟨-, hexists, rfl⟩ | ⟨hfalse, -, -⟩⟩ := queueFrameOutput_cases hnext
  · exact hrest queue rfl fun t ht hsecondary =>
      hlaterOf ht hsecondary fun hkey => hnone ⟨t, ht, hkey⟩
  · refine hrest _ (Watermark.filter_eraseP fun t ht hprimary' => hprimary t ht hprimary') ?_
    intro t ht hsecondary
    refine hlaterOf (List.mem_of_mem_eraseP ht) hsecondary fun hkey => ?_
    have hperm := keys_replace_perm hexists (newTask cfg _ true) rfl
    rw [keys, List.map_append, ← keys] at hperm
    have hdisjoint := (List.nodup_append.mp (hperm.nodup_iff.mpr hnodup)).2.2
    exact hdisjoint _ (mem_keys.mpr ⟨t, ht, rfl⟩) _ (List.mem_singleton_self _) hkey
  · cases hfalse

/-- A frame that has not been published is in the queue. -/
theorem mem_keys (hordered : Ordered cfg index ambiguity count published queue) {block : Nat}
    (hlt : block < count)
    (hunpublished : framePosition cfg index ambiguity block ∉ published) :
    (framePosition cfg index ambiguity block).key ∈ keys queue := by
  have hmem : framePosition cfg index ambiguity block ∈
      published ++ (primaryTasks queue).map Task.asmPos := by
    rw [hordered.frames]
    exact mem_framePositions.mpr ⟨block, hlt, rfl⟩
  obtain ⟨t, ht, heq⟩ := List.mem_map.mp ((List.mem_append.mp hmem).resolve_left hunpublished)
  exact FrameSync.mem_keys.mpr ⟨t, (List.mem_filter.mp ht).1, congrArg AsmPosition.key heq⟩

/-- A secondary frame of a later block is queued at most, one of an unpublished frame is
already in the queue. -/
theorem queueSecondary (hordered : Ordered cfg index ambiguity count published queue)
    {info : AsmPosition} (hinfo : IsLater cfg index ambiguity count info ∨ ∃ block < count,
      info.key = (framePosition cfg index ambiguity block).key ∧
        framePosition cfg index ambiguity block ∉ published)
    (hnext : queueFrameOutput cfg queue info false = some next) :
    Ordered cfg index ambiguity count published next := by
  obtain ⟨-, ⟨hnone, rfl⟩ | ⟨htrue, -, -⟩ | ⟨-, -, rfl⟩⟩ := queueFrameOutput_cases hnext
  · have hlater : IsLater cfg index ambiguity count info := by
      apply hinfo.resolve_right
      rintro ⟨block, hlt, hkey, hunpublished⟩
      have hmem := hordered.mem_keys hlt hunpublished
      rw [← hkey, FrameSync.mem_keys] at hmem
      exact hnone hmem
    constructor
    · rw [primaryTasks, List.filter_append, List.filter_cons_of_neg (by simp [newTask]),
        List.filter_nil, List.append_nil]
      exact hordered.frames
    · intro t ht hsecondary
      rcases List.mem_append.mp ht with hold | hnew
      · exact hordered.later t hold hsecondary
      · rw [List.mem_singleton.mp hnew]
        exact hlater
  · cases htrue
  · exact hordered

end Ordered

/-- The secondary positions of a frame are those of the blocks around it. -/
theorem secondaryPositions_cases (hindex : index < cfg.blockLen) {count : Nat}
    {info : AsmPosition}
    (hinfo : info ∈ secondaryPositions cfg (framePosition cfg index ambiguity count)) :
    ∃ block, info.key = (framePosition cfg index ambiguity block).key ∧
      (count < block ∨ block < count ∧ count ≤ block + cfg.framesBefore) := by
  rcases List.mem_append.mp hinfo with hbefore | hafter
  · obtain ⟨i, hi, heq⟩ := List.mem_filterMap.mp hbefore
    have hrange := List.mem_range'_1.mp hi
    split at heq
    next => cases heq
    next hoffset =>
      cases heq
      have hle : i ≤ count := by
        by_contra hmore
        have hproduct : (count + 1) * cfg.blockLen ≤ i * cfg.blockLen :=
          Nat.mul_le_mul_right _ (Nat.lt_of_not_le hmore)
        have hnext : (count + 1) * cfg.blockLen = count * cfg.blockLen + cfg.blockLen :=
          Nat.succ_mul ..
        dsimp only [framePosition] at hoffset
        omega
      refine ⟨count - i, ?_, Or.inr ⟨by omega, by omega⟩⟩
      have hproduct := Nat.mul_le_mul_right cfg.blockLen hle
      simp only [AsmPosition.key, framePosition, Nat.sub_mul, Prod.mk.injEq, and_true]
      omega
  · obtain ⟨i, hi, rfl⟩ := List.mem_map.mp hafter
    have hrange := List.mem_range'_1.mp hi
    refine ⟨count + i, ?_, Or.inl (by omega)⟩
    simp only [AsmPosition.key, framePosition, Nat.add_mul, Nat.add_assoc]

/-- Processing the result of a search queues the frame of the block. -/
theorem Ordered.processBuffer {count : Nat} {published : List AsmPosition} {b next : Block env}
    (hordered : Ordered cfg index ambiguity count published b.frameQueue)
    (hindex : index < cfg.blockLen) (hnodup : (keys b.frameQueue).Nodup)
    (hsequence : b.sequenceNumber = count) (hoffset : b.buffer.offset = count * cfg.blockLen)
    (hbelow : ∀ pos ∈ published, pos.offset < sendThreshold cfg b.buffer)
    (hnext : processBuffer cfg b index ambiguity = .ok next) :
    Ordered cfg index ambiguity (count + 1) published next.frameQueue := by
  have hfound : foundFrame b index ambiguity = framePosition cfg index ambiguity count := by
    rw [foundFrame, hsequence, hoffset, Nat.add_comm]
    rfl
  obtain ⟨queue, -, hfirst, hrest⟩ := processBuffer_ok hnext
  rw [hfound] at hfirst hrest
  refine (queueSecondary_induction (Ordered cfg index ambiguity (count + 1) published) _ ?_
    (hordered.queuePrimary hnodup hfirst)).1 _ hrest
  intro before after info hinfo hbefore hafter
  refine hbefore.queueSecondary ?_ hafter
  obtain ⟨block, hkey, hlater | ⟨hlt, hle⟩⟩ := secondaryPositions_cases hindex hinfo
  · exact Or.inl ⟨block, hlater, hkey⟩
  · refine Or.inr ⟨block, by omega, hkey, fun hmem => ?_⟩
    -- a published frame is too far back for a secondary position
    have hbefore := hbelow _ hmem
    have hproduct := Nat.mul_le_mul_right cfg.blockLen hle
    rw [Nat.add_mul] at hproduct
    rw [sendThreshold, minusCapZero_eq_sub, hoffset] at hbefore
    dsimp only [framePosition] at hbefore
    omega

/-- No search raises an exception if the head of the first frame is in the stream and its message
fits a vector. -/
theorem exists_processBuffer_of_le {count : Nat} {b : Block env} (hindex : index < cfg.blockLen)
    (hhead : cfg.numHead ≤ index) (hfits : messageLen env cfg ≤ maxVectorLen)
    (hsequence : b.sequenceNumber = count) (hoffset : b.buffer.offset = count * cfg.blockLen) :
    ∃ next, processBuffer cfg b index ambiguity = .ok next := by
  rw [exists_processBuffer]
  change ∀ info ∈ foundFrame b index ambiguity ::
    secondaryPositions cfg (foundFrame b index ambiguity), _
  have hfound : foundFrame b index ambiguity = framePosition cfg index ambiguity count := by
    rw [foundFrame, hsequence, hoffset, Nat.add_comm]
    rfl
  rw [hfound, List.forall_mem_cons]
  refine ⟨⟨hhead.trans (Nat.le_add_right _ _), hfits⟩, fun info hinfo => ⟨?_, hfits⟩⟩
  obtain ⟨block, hkey, -⟩ := secondaryPositions_cases hindex hinfo
  rw [(Prod.mk.inj hkey).1]
  exact hhead.trans (Nat.le_add_right _ _)

theorem primaryTasks_map_serveTask (buffer : Buffer env) (queue : List (Task env)) :
    primaryTasks (queue.map (serveTask cfg buffer)) =
      (primaryTasks queue).map (serveTask cfg buffer) := by
  rw [primaryTasks, List.filter_map]
  congr 2
  funext t
  exact (serveTask_same cfg buffer t).primary

/-- Processing the queue publishes the next frames of it, if none is ready before an earlier
one. -/
theorem Ordered.processFrameQueue {count : Nat} {b : Block env}
    (hordered : Ordered cfg index ambiguity count (b.published.map Task.asmPos) b.frameQueue)
    (hunsent : ∀ t ∈ b.frameQueue, t.messageSendOut = false)
    (hlater : sendThreshold cfg b.buffer ≤ index + count * cfg.blockLen)
    (hready : ∀ s ∈ b.frameQueue, ∀ t ∈ b.frameQueue, s.primary → t.primary →
      s.asmPos.offset < t.asmPos.offset → (serveTask cfg b.buffer t).isReady cfg b.buffer →
      (serveTask cfg b.buffer s).isReady cfg b.buffer) :
    Ordered cfg index ambiguity count ((processFrameQueue cfg b).published.map Task.asmPos)
        (processFrameQueue cfg b).frameQueue ∧
      ∀ t ∈ b.frameQueue, (serveTask cfg b.buffer t).isReady cfg b.buffer → t.primary := by
  have hprimary : ∀ t ∈ b.frameQueue, (serveTask cfg b.buffer t).isReady cfg b.buffer →
      t.primary := by
    intro t ht hready
    by_contra hsecondary
    have hoffset := (hordered.later t ht (Bool.eq_false_iff.mpr hsecondary)).le_offset
    simp only [Task.isReady, Bool.and_eq_true, decide_eq_true_eq] at hready
    rw [(serveTask_same cfg b.buffer t).asmPos] at hready
    omega
  refine ⟨⟨?_, ?_⟩, hprimary⟩
  · obtain ⟨served, hserved⟩ : ∃ served, served = b.frameQueue.map (serveTask cfg b.buffer) :=
      ⟨_, rfl⟩
    have hpositions : (primaryTasks served).map Task.asmPos =
        (primaryTasks b.frameQueue).map Task.asmPos := by
      rw [hserved, primaryTasks_map_serveTask, List.map_map]
      exact List.map_congr_left fun t _ => (serveTask_same cfg b.buffer t).asmPos
    have hreleased : served.filter (fun t => t.isReady cfg b.buffer) =
        (primaryTasks served).filter fun t => t.isReady cfg b.buffer := by
      rw [primaryTasks, List.filter_filter]
      refine List.filter_congr fun t ht => ?_
      rw [hserved] at ht
      obtain ⟨s, hs, rfl⟩ := List.mem_map.mp ht
      rw [(serveTask_same cfg b.buffer s).primary]
      cases hcase : (serveTask cfg b.buffer s).isReady cfg b.buffer with
      | true => rw [hprimary s hs hcase, Bool.and_self]
      | false => rfl
    have hkept : primaryTasks (served.filter fun t => !t.isReady cfg b.buffer) =
        (primaryTasks served).filter fun t => !t.isReady cfg b.buffer := by
      rw [primaryTasks, primaryTasks, List.filter_filter, List.filter_filter]
      refine List.filter_congr fun t _ => ?_
      exact Bool.and_comm _ _
    have horder : (primaryTasks served).Pairwise fun first second =>
        second.isReady cfg b.buffer → first.isReady cfg b.buffer := by
      have hpairwise : (framePositions cfg index ambiguity count).Pairwise
          fun first second => first.offset < second.offset := framePositions_pairwise count
      rw [← hordered.frames] at hpairwise
      have hqueue := List.pairwise_map.mp (List.pairwise_append.mp hpairwise).2.1
      rw [hserved, primaryTasks_map_serveTask]
      refine List.pairwise_map.mpr (hqueue.imp_of_mem fun hs ht hlt => ?_)
      obtain ⟨hs, hsPrimary⟩ := List.mem_filter.mp hs
      obtain ⟨ht, htPrimary⟩ := List.mem_filter.mp ht
      exact hready _ hs _ ht hsPrimary htPrimary hlt
    rw [processFrameQueue_published, processFrameQueue_frameQueue cfg hunsent, List.map_append,
      List.map_map, List.append_assoc, ← hserved]
    change _ ++ ((served.filter _).map Task.asmPos ++ _) = _
    rw [hreleased, hkept, ← List.map_append, Watermark.filter_append_filter_not horder,
      hpositions]
    exact hordered.frames
  · intro t ht hsecondary
    obtain ⟨s, hs, rfl, -⟩ := (mem_processFrameQueue cfg hunsent).mp ht
    have hsame := serveTask_same cfg b.buffer s
    rw [hsame.asmPos]
    exact hordered.later s hs (hsame.primary.symm.trans hsecondary)

/-- A frame is ready when a later one is. -/
theorem Task.isReady_of_later {received : List env.Sample} {buffer : Buffer env} {s t : Task env}
    (hserved : s.Served cfg received.length) (hs : s.WellFormed cfg)
    (hunsent : s.messageSendOut = false) (ht : t.WellFormed cfg)
    (hdelivered : t.Delivered cfg received) (hlt : s.asmPos.offset < t.asmPos.offset)
    (hready : t.isReady cfg buffer) : s.isReady cfg buffer := by
  simp only [isReady, Bool.and_eq_true, decide_eq_true_eq] at hready ⊢
  have hcopied := dataComplete_iff.mp hready.1.1
  have hcomplete : s.dataComplete := by
    by_contra hincomplete
    obtain ⟨hcopyFrom, -⟩ := hserved.resolve_left hincomplete
    have hless : s.numSymbolsCopied < s.numSymbolsTotal :=
      Nat.lt_of_le_of_ne hs.copied_le fun h => hincomplete (dataComplete_iff.mpr h)
    have hsTotal := hs.numSymbolsTotal
    have htTotal := ht.numSymbolsTotal
    have hsStart := frameStart_eq hs.numHead_le
    have htStart := frameStart_eq ht.numHead_le
    obtain ⟨symbol, hsymbol, -⟩ := hdelivered (cfg.outputLen - 1) (by omega)
    have hlast := (List.getElem?_eq_some_iff.mp hsymbol).1
    rw [hs.copyFrom] at hcopyFrom
    omega
  exact ⟨⟨hcomplete, by rw [hunsent]; rfl⟩, by omega⟩

/-- The points between a search and the advance of the buffer. -/
def Point.isSearched {Sample : Type} : Point Sample → Bool
  | .serve _ | .advance _ => true
  | _ => false

namespace Machine

/-- The searches of a run are in step with the blocks, and the frames follow in their order. -/
structure InOrder (cfg : Config) (index ambiguity : Nat) (m : Machine env) : Prop where
  ordered : Ordered cfg index ambiguity m.block.sequenceNumber
    (m.block.published.map Task.asmPos) m.block.frameQueue
  aligned : m.block.buffer.offset + (if m.point.isSearched then cfg.blockLen else 0) =
    m.block.sequenceNumber * cfg.blockLen
  quiet : m.point ≠ .workRaised
  primary : ∀ t ∈ m.block.published, t.primary
  servable : ∀ t ∈ m.block.frameQueue, t.primary →
    t.Servable (m.block.buffer.offsetStart cfg)
  waits : m.justServed → ∀ t ∈ m.block.frameQueue, t.primary →
    t.Served cfg m.received.length ∧ ¬ t.isReady cfg m.block.buffer

/-- A step that leaves the tasks and the searches alone. -/
theorem InOrder.keep {m next : Machine env} (horder : InOrder cfg index ambiguity m)
    (hqueue : next.block.frameQueue = m.block.frameQueue) (hout : next.block.out = m.block.out)
    (hsequence : next.block.sequenceNumber = m.block.sequenceNumber)
    (hoffset : next.block.buffer.offsetCounter = m.block.buffer.offsetCounter)
    (hsearched : next.point.isSearched = m.point.isSearched) (hquiet : next.point ≠ .workRaised)
    (hpoint : ¬ next.justServed) : InOrder cfg index ambiguity next := by
  have hpublished : next.block.published = m.block.published := by
    rw [Block.published, hout]
    rfl
  refine ⟨?_, ?_, hquiet, ?_, ?_, fun h => absurd h hpoint⟩
  · rw [hsequence, hpublished, hqueue]
    exact horder.ordered
  · rw [Buffer.offset, hoffset, hsequence, hsearched]
    exact horder.aligned
  · rw [hpublished]
    exact horder.primary
  · rw [hqueue, Buffer.offsetStart_eq, hoffset]
    exact horder.servable

theorem search_of_ok {m : Machine env} {b : Block env}
    (hnext : processBuffer cfg m.block index ambiguity = .ok b)
    (success failure : Point env.Sample) :
    (m.search cfg index ambiguity success failure).point = success ∧
      (m.search cfg index ambiguity success failure).block = b := by
  unfold search
  rw [hnext]
  exact ⟨rfl, rfl⟩

theorem InOrder.search {m : Machine env} (horder : InOrder cfg index ambiguity m)
    (hunique : Unique cfg m) (hindex : index < cfg.blockLen) (hhead : cfg.numHead ≤ index)
    (hfits : messageLen env cfg ≤ maxVectorLen)
    {rest : List env.Sample} (hpoint : m.point = .search rest) :
    InOrder cfg index ambiguity (m.search cfg index ambiguity (.serve rest) .workRaised) := by
  have honce := hunique.once (by simp [hpoint])
  have hoffset : m.block.buffer.offset = m.block.sequenceNumber * cfg.blockLen := by
    have haligned := horder.aligned
    rw [hpoint] at haligned
    exact haligned
  obtain ⟨b, hnext⟩ := exists_processBuffer_of_le hindex hhead hfits rfl hoffset
  obtain ⟨hsuccess, hblock⟩ := search_of_ok hnext (.serve rest) .workRaised
  have hprocessed : b = processed cfg m.block index ambiguity := by
    rw [processed, hnext]
  have hbuffer : b.buffer = m.block.buffer := by rw [hprocessed, processed_buffer]
  have hpublished : b.published = m.block.published := by
    rw [Block.published, hprocessed, processed_out]
    rfl
  obtain ⟨-, hsequence, -, -⟩ := processBuffer_ok hnext
  have hbelow : ∀ pos ∈ m.block.published.map Task.asmPos,
      pos.offset < sendThreshold cfg m.block.buffer := by
    intro pos hpos
    obtain ⟨t, ht, rfl⟩ := List.mem_map.mp hpos
    exact honce.below _ (mem_keys.mpr ⟨t, ht, rfl⟩)
  refine ⟨?_, ?_, by simp [hsuccess], ?_, ?_, ?_⟩
  · rw [hblock, hpublished, hsequence]
    exact horder.ordered.processBuffer hindex hunique.queued rfl hoffset hbelow hnext
  · rw [hsuccess, hblock, hbuffer, hsequence, hoffset, Nat.succ_mul]
    rfl
  · rw [hblock, hpublished]
    exact horder.primary
  · rw [hblock, hbuffer, hprocessed]
    refine processed_induction (fun queue => ∀ t ∈ queue, t.primary →
      t.Servable (m.block.buffer.offsetStart cfg)) index ambiguity ?_ horder.servable
    intro before after info primary hbefore _ hle hafter t ht hprimary
    rcases mem_queueFrameOutput hafter ht with hold | rfl
    · exact hbefore t hold hprimary
    · exact newTask_servable primary (queueFrameOutput_cases hafter).1 (hle hprimary)
  · rw [justServed, hsuccess]
    rintro (h | ⟨_, h⟩) <;> cases h

theorem InOrder.serve {m next : Machine env} (horder : InOrder cfg index ambiguity m)
    (hsound : Sound cfg m) (hstopped : m.point ≠ .stopped)
    (hlast : m.block.buffer.offsetLastSymbol cfg + 1 = m.received.length)
    (hreceived : next.received = m.received)
    (hblock : next.block = processFrameQueue cfg m.block)
    (hsearched : next.point.isSearched = m.point.isSearched) (hquiet : next.point ≠ .workRaised)
    (hcontents : Contents cfg next) : InOrder cfg index ambiguity next := by
  have hunsent := hsound.well.unsent hstopped
  have hserved : ∀ t ∈ m.block.frameQueue, t.primary →
      (serveTask cfg m.block.buffer t).Served cfg m.received.length := by
    intro t ht hprimary
    rw [← hlast]
    exact (horder.servable t ht hprimary).served (hsound.well.queued t ht)
  have hready : ∀ s ∈ m.block.frameQueue, ∀ t ∈ m.block.frameQueue, s.primary → t.primary →
      s.asmPos.offset < t.asmPos.offset →
      (serveTask cfg m.block.buffer t).isReady cfg m.block.buffer →
      (serveTask cfg m.block.buffer s).isReady cfg m.block.buffer := by
    intro s hs t ht hsPrimary _ hlt hready
    have hpublished : (serveTask cfg m.block.buffer t).sent ∈ next.block.published := by
      rw [hblock]
      exact (mem_published_processFrameQueue cfg).mpr (Or.inr ⟨t, ht, hready, rfl⟩)
    have hcomplete : (serveTask cfg m.block.buffer t).dataComplete := by
      simp only [Task.isReady, Bool.and_eq_true] at hready
      exact hready.1.1
    have hdelivered := hcontents.published _ hpublished hcomplete
    rw [hreceived] at hdelivered
    refine Task.isReady_of_later (hserved s hs hsPrimary)
      ((hsound.well.queued s hs).serveTask _) ?_ ((hsound.well.queued t ht).serveTask _)
      hdelivered ?_ hready
    · exact (serveTask_same cfg _ s).messageSendOut.trans (hunsent s hs)
    · rw [(serveTask_same cfg _ s).asmPos, (serveTask_same cfg _ t).asmPos]
      exact hlt
  have hlater : sendThreshold cfg m.block.buffer ≤
      index + m.block.sequenceNumber * cfg.blockLen := by
    have haligned := horder.aligned
    rw [sendThreshold, minusCapZero_eq_sub]
    omega
  obtain ⟨hordered, hprimary⟩ := horder.ordered.processFrameQueue hunsent hlater hready
  refine ⟨?_, ?_, hquiet, ?_, ?_, ?_⟩
  · rw [hblock]
    exact hordered
  · rw [hsearched, hblock]
    exact horder.aligned
  · intro t ht
    rw [hblock, mem_published_processFrameQueue] at ht
    obtain hold | ⟨s, hs, hready, rfl⟩ := ht
    · exact horder.primary t hold
    · exact (serveTask_same cfg m.block.buffer s).primary.trans (hprimary s hs hready)
  · intro t ht hprimary
    rw [hblock, mem_processFrameQueue cfg hunsent] at ht
    obtain ⟨s, hs, rfl, -⟩ := ht
    rw [(serveTask_same cfg m.block.buffer s).primary] at hprimary
    rw [hblock, processFrameQueue_buffer]
    exact (horder.servable s hs hprimary).serveTask
  · intro _ t ht hprimary
    rw [hblock, mem_processFrameQueue cfg hunsent] at ht
    obtain ⟨s, hs, rfl, hwaits⟩ := ht
    rw [(serveTask_same cfg m.block.buffer s).primary] at hprimary
    rw [hreceived, hblock, processFrameQueue_buffer]
    exact ⟨hserved s hs hprimary, hwaits⟩

theorem InOrder.advance {m next : Machine env} (horder : InOrder cfg index ambiguity m)
    (hsound : Sound cfg m) (hserves : cfg.Serves index) {rest : List env.Sample}
    (hadvance : m.point = .advance rest) (hpoint : next.point = .loop rest)
    (hblock : next.block = { m.block with buffer := m.block.buffer.advance cfg }) :
    InOrder cfg index ambiguity next := by
  have hfull := hsound.counts.full (by rw [hadvance]; rfl)
  have hequal := hsound.counts.received_eq (by rw [hadvance]; rfl)
  have hlen := bufferLen_eq cfg
  have hpublished : next.block.published = m.block.published := by rw [hblock]; rfl
  refine ⟨?_, ?_, by simp [hpoint], ?_, ?_, ?_⟩
  · rw [hpublished, hblock]
    exact horder.ordered
  · have haligned := horder.aligned
    rw [hadvance] at haligned
    rw [hpoint, hblock]
    exact haligned
  · rw [hpublished]
    exact horder.primary
  · intro t ht hprimary
    rw [hblock] at ht ⊢
    obtain ⟨hserved, -⟩ := horder.waits (Or.inr ⟨rest, hadvance⟩) t ht hprimary
    have hframe : ∃ block, t.asmPos = framePosition cfg index ambiguity block := by
      have hmem : t.asmPos ∈ framePositions cfg index ambiguity m.block.sequenceNumber := by
        rw [← horder.ordered.frames]
        exact List.mem_append_right _ (List.mem_map_of_mem (List.mem_filter.mpr ⟨ht, hprimary⟩))
      obtain ⟨block, -, heq⟩ := mem_framePositions.mp hmem
      exact ⟨block, heq⟩
    have hserves' : cfg.Serves t.asmPos.offset := by
      obtain ⟨block, heq⟩ := hframe
      rw [heq]
      unfold Config.Serves framePosition
      rw [Nat.add_mul_mod_self_right]
      exact hserves
    exact hserved.servable (hsound.well.queued t ht) hserves' hsound.counts.aligned (by omega)
  · rw [justServed, hpoint]
    rintro (h | ⟨_, h⟩) <;> cases h

/-- The results of searches that find the ASM. -/
def Finds (index ambiguity : Nat) : Label env.Sample → Prop
  | .found i a => i = index ∧ a = ambiguity
  | _ => True

theorem InOrder.step {m next : Machine env} {label : Label env.Sample} (hasm : 2 ≤ cfg.asmLen)
    (horder : InOrder cfg index ambiguity m) (hsound : Sound cfg m) (hunique : Unique cfg m)
    (hwork : Working cfg m) (hindex : index < cfg.blockLen) (hhead : cfg.numHead ≤ index)
    (hfits : messageLen env cfg ≤ maxVectorLen)
    (hserves : cfg.Serves index) (hlabel : label ≠ .work []) (hfinds : Finds index ambiguity label)
    (hmoves : Moves cfg m label next) (hworking : next.point.isWorking = true) :
    InOrder cfg index ambiguity next := by
  have hcontents := (hwork.step hasm hsound hlabel hmoves hworking).contents
  cases hmoves with
  | call _ hpoint | leave hpoint =>
      exact horder.keep rfl rfl rfl rfl (by rw [hpoint]; rfl) (by simp)
        (by simp [justServed])
  | read rest hrest hpoint =>
      have hsearched : (m.readNext cfg rest).point.isSearched = m.point.isSearched := by
        rw [readNext_point, hpoint]
        split <;> rfl
      refine horder.keep rfl rfl rfl rfl hsearched ?_ ?_
      · rw [readNext_point]
        split <;> simp
      · unfold justServed
        rw [readNext_point]
        split <;> simp
  | search rest i a hpoint hi =>
      obtain ⟨rfl, rfl⟩ := hfinds
      exact horder.search hunique hindex hhead hfits hpoint
  | serve rest hpoint =>
      exact horder.serve hsound (by simp [hpoint])
        (hwork.fed.received_length hsound.counts (Or.inl ⟨rest, hpoint⟩)) rfl rfl
        (by rw [hpoint]; rfl) (by simp) hcontents
  | advance rest hpoint => exact horder.advance hsound hserves hpoint rfl rfl
  | finish hpoint =>
      exact horder.serve hsound (by simp [hpoint])
        (hwork.fed.received_length hsound.counts (Or.inr hpoint)) rfl rfl
        (by rw [hpoint]; rfl) (by simp) hcontents
  | stop | stopSearch => simp at hworking
  | stopServe | flush => cases hworking

end Machine

end GrCcsds.FrameSync
