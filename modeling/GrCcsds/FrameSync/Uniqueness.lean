import GrCcsds.Foundation.Watermark
import GrCcsds.FrameSync.Tasks

/-! # Every frame is published at most once

The send threshold is a watermark: the buffer only generates positions at or
above it, and a frame is sent out below it. Before the end of the stream no
position is therefore queued again after its frame has been sent out.
-/

namespace GrCcsds.FrameSync

open Utils Foundation Foundation.Watermark

variable {env : Platform} {cfg : Config}

/-- What identifies the frames of a list of tasks. -/
def keys (tasks : List (Task env)) : List (Nat × Nat) := tasks.map fun t => t.asmPos.key

theorem mem_keys {tasks : List (Task env)} {key : Nat × Nat} :
    key ∈ keys tasks ↔ ∃ t ∈ tasks, t.asmPos.key = key := List.mem_map

/-- Replacing a task by one of the same position keeps the keys up to their order. -/
theorem keys_replace_perm {queue : List (Task env)} {info : AsmPosition}
    (hexists : ∃ t ∈ queue, t.asmPos.key = info.key) (new : Task env)
    (hnew : new.asmPos = info) :
    (keys (queue.eraseP (fun t => info.matches t.asmPos) ++ [new])).Perm (keys queue) := by
  obtain ⟨t, ht, hkey⟩ := hexists
  obtain ⟨old, before, after, _, hmatches, hqueue, herase⟩ :=
    List.exists_of_eraseP (p := fun t : Task env => info.matches t.asmPos) ht
      ((AsmPosition.matches_iff info t.asmPos).mpr hkey)
  have hsame : old.asmPos.key = new.asmPos.key := by
    rw [hnew]
    exact (AsmPosition.matches_iff _ _).mp hmatches
  rw [herase, hqueue]
  simp only [keys, List.map_append, List.map_cons, List.map_nil, hsame, List.append_assoc]
  exact (List.perm_append_singleton _ _).append_left _

/-- Queueing a generated position keeps the invariant of the watermark. -/
theorem once_queueFrameOutput {queue next : List (Task env)} {published : List (Nat × Nat)}
    {watermark : Nat} {info : AsmPosition} {primary : Bool}
    (honce : Once Prod.fst watermark (keys queue) published)
    (hoffset : watermark ≤ info.offset)
    (hnext : queueFrameOutput cfg queue info primary = some next) :
    Once Prod.fst watermark (keys next) published := by
  obtain ⟨_, ⟨hnone, rfl⟩ | ⟨_, hexists, rfl⟩ | ⟨_, _, rfl⟩⟩ := queueFrameOutput_cases hnext
  · have hnew : info.key ∉ keys queue := by rwa [mem_keys]
    have hadd := honce.add hnew hoffset
    rw [keys, List.map_append]
    exact hadd
  · exact honce.of_perm (keys_replace_perm hexists (newTask cfg info primary) rfl)
  · exact honce

namespace Machine

/-- No two queued frames and no two published ones have the same key, and until the
stream ends no published frame lies at or above the send threshold. -/
structure Unique (cfg : Config) (m : Machine env) : Prop where
  queued : (keys m.block.frameQueue).Nodup
  published : (keys m.block.published).Nodup
  once : m.point ≠ .stopped → Once Prod.fst (sendThreshold cfg m.block.buffer)
    (keys m.block.frameQueue) (keys m.block.published)

theorem unique_of_once {m : Machine env} (honce : Once Prod.fst (sendThreshold cfg m.block.buffer)
    (keys m.block.frameQueue) (keys m.block.published)) : Unique cfg m :=
  ⟨honce.pending_nodup, honce.published_nodup, fun _ => honce⟩

theorem unique_start {additional : List AsmPosition} {b : Block env}
    (hb : construct cfg additional = some b) : Unique cfg (start b) := by
  obtain ⟨queue, hqueue, rfl⟩ := construct_eq hb
  apply unique_of_once
  refine (queueSecondary_induction (fun queue => Once Prod.fst (sendThreshold cfg
    (Buffer.initial cfg : Buffer env)) (keys queue) []) additional ?_ Once.empty).1 queue hqueue
  intro before after info _ hbefore hafter
  apply once_queueFrameOutput hbefore _ hafter
  simp [sendThreshold, Buffer.offset]

theorem keys_serve (b : Block env) :
    keys (b.frameQueue.map (serveTask cfg b.buffer)) = keys b.frameQueue := by
  rw [keys, List.map_map]
  apply List.map_congr_left
  intro t _
  exact congrArg AsmPosition.key (serveTask_same cfg b.buffer t).asmPos

theorem once_processFrameQueue {b : Block env}
    (hunsent : ∀ t ∈ b.frameQueue, t.messageSendOut = false)
    (honce : Once Prod.fst (sendThreshold cfg b.buffer) (keys b.frameQueue) (keys b.published)) :
    Once Prod.fst (sendThreshold cfg b.buffer) (keys (processFrameQueue cfg b).frameQueue)
      (keys (processFrameQueue cfg b).published) := by
  have hreleased : keys (((b.frameQueue.map (serveTask cfg b.buffer)).filter fun t =>
      t.isReady cfg b.buffer).map Task.sent) =
      keys ((b.frameQueue.map (serveTask cfg b.buffer)).filter fun t =>
        t.isReady cfg b.buffer) := by
    rw [keys, List.map_map]
    rfl
  rw [processFrameQueue_frameQueue cfg hunsent, processFrameQueue_published, keys, keys,
    List.map_append]
  change Once _ _ _ (keys b.published ++ keys _)
  rw [hreleased]
  apply honce.release
  · rw [← keys_serve b]
    unfold keys
    rw [← List.map_append]
    exact (List.filter_append_perm _ _).map _
  · intro key hkey
    obtain ⟨t, ht, rfl⟩ := mem_keys.mp hkey
    have hready := (List.mem_filter.mp ht).2
    simp only [Task.isReady, Bool.and_eq_true, decide_eq_true_eq] at hready
    exact hready.2

theorem Unique.step {m next : Machine env} {label : Label env.Sample} (hunique : Unique cfg m)
    (hwell : TasksWell cfg m) (hmoves : Moves cfg m label next) : Unique cfg next := by
  have honce := hunique.once hmoves.point_ne_stopped
  have hunsent := hwell.unsent hmoves.point_ne_stopped
  cases hmoves.tasks with
  | keep _ hqueue hout hoffset =>
      apply unique_of_once
      rw [hqueue, Block.published, hout]
      apply honce.raise
      simp only [sendThreshold, minusCapZero_eq_sub]
      omega
  | enqueue _ index ambiguity hblock =>
      apply unique_of_once
      rw [hblock, Block.published, processed_out, processed_buffer]
      refine processed_induction (fun queue => Once Prod.fst (sendThreshold cfg m.block.buffer)
        (keys queue) (keys m.block.published)) index ambiguity ?_ honce
      intro before after info primary hbefore hgenerated _ hafter
      apply once_queueFrameOutput hbefore _ hafter
      unfold Generated at hgenerated
      simp only [sendThreshold, minusCapZero_eq_sub]
      omega
  | serve _ _ _ hblock =>
      apply unique_of_once
      rw [hblock, processFrameQueue_buffer]
      exact once_processFrameQueue hunsent honce
  | flush _ _ hnext hblock =>
      refine ⟨?_, ?_, fun hne => absurd hnext hne⟩
      · have hsame : keys (flushFrames m.block).frameQueue = keys m.block.frameQueue := by
          simp only [keys, flushFrames, List.map_map]
          apply List.map_congr_left
          intro t _
          cases hflush : flushTask t with
          | none => simp [hflush]
          | some s => simp [hflush, flushTask_asmPos hflush]
        rw [hblock, hsame]
        exact hunique.queued
      · rw [hblock, flushFrames_published, keys, List.map_append]
        apply honce.published_append_nodup
        exact map_filterMap_sublist
          (fun t s hflush => congrArg AsmPosition.key (flushTask_asmPos hflush)) _

theorem unique_of_reachable {additional : List AsmPosition} {b : Block env}
    (hb : construct cfg additional = some b) {allowed : Machine env → Label env.Sample → Prop}
    {m : Machine env} (hreachable : Transition.Reachable (step cfg) allowed (start b) m) :
    Unique cfg m := by
  apply invariant_of_reachable hb hreachable (unique_start hb)
  intro _ _ _ _ hsound hunique _ hmoves
  exact hunique.step hsound.well hmoves

end Machine

/-- In every run, whatever the search finds and however the symbols arrive, no two
entries of the queue and no two published frames have the same position and ambiguity. -/
theorem queue_and_messages_unique {additional : List AsmPosition} {b : Block env}
    (hb : construct cfg additional = some b) {m : Machine env}
    (hreachable : Transition.Reachable (Machine.step cfg) (fun _ _ => True) (.start b) m) :
    (m.block.frameQueue.map fun t => t.asmPos.key).Nodup ∧
      (m.block.published.map fun t => t.asmPos.key).Nodup := by
  have hunique := Machine.unique_of_reachable hb hreachable
  exact ⟨hunique.queued, hunique.published⟩

/-- One secondary frame on each side of a primary one. -/
def secondaryConfig : Config := { shortConfig with framesBefore := 1, framesAfter := 1 }

/-- Three blocks with the ASM at their start, so that the later searches generate frames again. -/
def secondaryRun : List (Label realPlatform.Sample) :=
  [.work [1, 1, 5, 1, 1, 6, 1, 1, 7, 1], .proceed, .found 0 0, .proceed, .proceed, .proceed,
    .found 0 0, .proceed, .proceed, .proceed, .found 0 0, .proceed, .proceed]

theorem queue_and_messages_unique_secondary : ∃ m : Machine realPlatform,
    Transition.run (Machine.step secondaryConfig) (.start (.initial secondaryConfig))
        secondaryRun = some m ∧
      m.block.published.map (fun t => t.asmPos.offset) = [0] ∧
      m.block.frameQueue.map (fun t => (t.asmPos.offset, t.primary)) =
        [(3, true), (6, true), (9, false)] ∧
      (m.block.frameQueue.map fun t => t.asmPos.key).Nodup ∧
      (m.block.published.map fun t => t.asmPos.key).Nodup := by
  have hconstruct : construct secondaryConfig [] =
      some (Block.initial secondaryConfig : Block realPlatform) := rfl
  obtain ⟨m, hrun, hpublished, hqueued⟩ : ∃ m : Machine realPlatform,
      Transition.run (Machine.step secondaryConfig) (.start (.initial secondaryConfig))
        secondaryRun = some m ∧
        m.block.published.map (fun t => t.asmPos.offset) = [0] ∧
        m.block.frameQueue.map (fun t => (t.asmPos.offset, t.primary)) =
          [(3, true), (6, true), (9, false)] := ⟨_, rfl, rfl, rfl⟩
  exact ⟨m, hrun, hpublished, hqueued, queue_and_messages_unique hconstruct
    (Transition.reachable_of_run hrun)⟩

end GrCcsds.FrameSync
