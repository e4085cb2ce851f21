import GrCcsds.FrameSync.Window

/-! # The frame queue

What queueing a position and processing the queue do to the copy tasks. Every
invariant of the queue follows from these rules.
-/

namespace GrCcsds.FrameSync

open Utils Foundation

variable {env : Platform}

/-- What identifies a frame: the offset of its ASM and its ambiguity. -/
def AsmPosition.key (pos : AsmPosition) : Nat × Nat := (pos.offset, pos.ambiguity)

theorem AsmPosition.matches_iff (first second : AsmPosition) :
    first.matches second ↔ second.key = first.key := by
  simp [AsmPosition.matches, AsmPosition.key]

namespace Output

/-- The task of a published frame. -/
def task? : Output env → Option (Task env)
  | .frame task => some task
  | .eof => none

end Output

/-- The tasks of the frames that a block has published. -/
def Block.published (b : Block env) : List (Task env) := b.out.filterMap Output.task?

theorem Block.mem_published {b : Block env} {t : Task env} :
    t ∈ b.published ↔ .frame t ∈ b.out := by
  simp only [Block.published, List.mem_filterMap]
  constructor
  · rintro ⟨out, hmem, hout⟩
    cases out with
    | frame task =>
        cases hout
        exact hmem
    | eof => cases hout
  · intro hmem
    exact ⟨_, hmem, rfl⟩

section Enqueue

variable {cfg : Config}

/-- The three ways to queue a position. -/
theorem queueFrameOutput_cases {queue next : List (Task env)} {info : AsmPosition}
    {primary : Bool} (hnext : queueFrameOutput cfg queue info primary = some next) :
    cfg.numHead ≤ info.offset ∧
      ((¬ ∃ t ∈ queue, t.asmPos.key = info.key) ∧ next = queue ++ [newTask cfg info primary] ∨
        primary = true ∧ (∃ t ∈ queue, t.asmPos.key = info.key) ∧
          next = queue.eraseP (fun t => info.matches t.asmPos) ++ [newTask cfg info primary] ∨
        primary = false ∧ (∃ t ∈ queue, t.asmPos.key = info.key) ∧ next = queue) := by
  unfold queueFrameOutput at hnext
  split at hnext
  next => cases hnext
  next hoffset =>
    refine ⟨Nat.le_of_not_lt hoffset, ?_⟩
    split at hnext
    next => cases hnext
    have hany : (queue.any fun t => info.matches t.asmPos) = true ↔
        ∃ t ∈ queue, t.asmPos.key = info.key := by
      simp only [List.any_eq_true, AsmPosition.matches_iff]
    split at hnext
    next hexists =>
      split at hnext
      next hprimary =>
        cases hnext
        exact Or.inr (Or.inl ⟨hprimary, hany.mp hexists, rfl⟩)
      next hprimary =>
        cases hnext
        exact Or.inr (Or.inr ⟨Bool.eq_false_iff.mpr hprimary, hany.mp hexists, rfl⟩)
    next hnone =>
      cases hnext
      exact Or.inl ⟨fun h => hnone (hany.mpr h), rfl⟩

theorem mem_queueFrameOutput {queue next : List (Task env)} {info : AsmPosition}
    {primary : Bool} (hnext : queueFrameOutput cfg queue info primary = some next)
    {t : Task env} (ht : t ∈ next) : t ∈ queue ∨ t = newTask cfg info primary := by
  obtain ⟨_, ⟨_, rfl⟩ | ⟨_, _, rfl⟩ | ⟨_, _, rfl⟩⟩ := queueFrameOutput_cases hnext
  · simpa using ht
  · rcases List.mem_append.mp ht with hold | hnew
    · exact Or.inl (List.mem_of_mem_eraseP hold)
    · exact Or.inr (List.mem_singleton.mp hnew)
  · exact Or.inl ht

/-- A queued primary frame stays, or a primary frame of the same position replaces it. -/
theorem queueFrameOutput_keeps {queue next : List (Task env)} {info : AsmPosition}
    {primary : Bool} (hnext : queueFrameOutput cfg queue info primary = some next)
    {t : Task env} (ht : t ∈ queue) :
    t ∈ next ∨ primary = true ∧ info.key = t.asmPos.key ∧ newTask cfg info primary ∈ next := by
  obtain ⟨_, ⟨_, rfl⟩ | ⟨hprimary, _, rfl⟩ | ⟨_, _, rfl⟩⟩ := queueFrameOutput_cases hnext
  · exact Or.inl (List.mem_append_left _ ht)
  -- a primary frame replaces the first task of its position only
  · by_cases hmatches : info.matches t.asmPos
    · refine Or.inr ⟨hprimary, ((AsmPosition.matches_iff _ _).mp hmatches).symm, ?_⟩
      exact List.mem_append_right _ (List.mem_singleton_self _)
    · apply Or.inl (List.mem_append_left _ _)
      exact (List.mem_eraseP_of_neg (p := fun t => info.matches t.asmPos) hmatches).mpr ht
  · exact Or.inl ht

theorem newTask_mem_queueFrameOutput {queue next : List (Task env)} {info : AsmPosition}
    (hnext : queueFrameOutput cfg queue info true = some next) :
    newTask cfg info true ∈ next := by
  obtain ⟨_, ⟨_, rfl⟩ | ⟨_, _, rfl⟩ | ⟨hfalse, _, _⟩⟩ := queueFrameOutput_cases hnext
  · exact List.mem_append_right _ (List.mem_singleton_self _)
  · exact List.mem_append_right _ (List.mem_singleton_self _)
  · cases hfalse

/-- What a list of secondary positions keeps if each one does, even when an exception
cuts the list short. -/
theorem queueSecondary_induction (inv : List (Task env) → Prop) (infos : List AsmPosition)
    (hstep : ∀ queue next, ∀ info ∈ infos, inv queue →
      queueFrameOutput cfg queue info false = some next → inv next)
    {queue : List (Task env)} (hqueue : inv queue) :
    (∀ next, queueSecondary cfg infos queue = .ok next → inv next) ∧
      ∀ next, queueSecondary cfg infos queue = .error next → inv next := by
  induction infos generalizing queue with
  | nil =>
      constructor
      · intro next hnext
        cases hnext
        exact hqueue
      · intro next hnext
        cases hnext
  | cons info rest ih =>
      rw [queueSecondary]
      cases hfirst : queueFrameOutput cfg queue info false with
      | none =>
          constructor
          · intro next hnext
            cases hnext
          · intro next hnext
            cases hnext
            exact hqueue
      | some middle =>
          apply ih
          · intro queue next info hinfo
            exact hstep queue next info (List.mem_cons_of_mem _ hinfo)
          · exact hstep queue middle info List.mem_cons_self hqueue hfirst

/-- Without an exception `processBuffer` queues the frame and then its secondary positions. -/
theorem processBuffer_ok {b next : Block env} {index ambiguity : Nat}
    (hnext : processBuffer cfg b index ambiguity = .ok next) :
    ∃ queue, next.sequenceNumber = b.sequenceNumber + 1 ∧
      queueFrameOutput cfg b.frameQueue (foundFrame b index ambiguity) true = some queue ∧
      queueSecondary cfg (secondaryPositions cfg (foundFrame b index ambiguity)) queue =
        .ok next.frameQueue := by
  obtain ⟨-, heq⟩ | ⟨queue, _, hfirst, ⟨-, heq⟩ | ⟨hrest, heq⟩⟩ :=
    processBuffer_cases cfg b index ambiguity
  · cases heq.symm.trans hnext
  · cases heq.symm.trans hnext
  · cases heq.symm.trans hnext
    exact ⟨queue, rfl, hfirst, hrest⟩

/-- Positions that the current buffer can still generate. -/
def Generated (cfg : Config) (b : Block env) (info : AsmPosition) : Prop :=
  b.buffer.offset ≤ info.offset + cfg.framesBefore * cfg.blockLen

theorem generated_of_mem_secondaryPositions {b : Block env} {frame info : AsmPosition}
    (hframe : b.buffer.offset ≤ frame.offset) (hinfo : info ∈ secondaryPositions cfg frame) :
    Generated cfg b info := by
  unfold Generated
  rcases List.mem_append.mp hinfo with hbefore | hafter
  · obtain ⟨i, hi, heq⟩ := List.mem_filterMap.mp hbefore
    have hle : i * cfg.blockLen ≤ cfg.framesBefore * cfg.blockLen := by
      apply Nat.mul_le_mul_right
      have hrange := List.mem_range'_1.mp hi
      omega
    split at heq
    next => cases heq
    next hoffset =>
      cases heq
      dsimp only
      omega
  · obtain ⟨i, _, rfl⟩ := List.mem_map.mp hafter
    dsimp only
    omega

/-- What queueing one generated position keeps, `processBuffer` keeps. -/
theorem processed_induction (inv : List (Task env) → Prop) {b : Block env} (index ambiguity : Nat)
    (hstep : ∀ queue next info primary, inv queue → Generated cfg b info →
      (primary = true → b.buffer.offset ≤ info.offset) →
      queueFrameOutput cfg queue info primary = some next → inv next)
    (hqueue : inv b.frameQueue) : inv (processed cfg b index ambiguity).frameQueue := by
  have hoffset : b.buffer.offset ≤ (foundFrame b index ambiguity).offset := Nat.le_add_right _ _
  have hprimary : ∀ queue,
      queueFrameOutput cfg b.frameQueue (foundFrame b index ambiguity) true = some queue →
        inv queue := fun queue hfirst =>
    hstep _ _ _ _ hqueue (Nat.le_trans hoffset (Nat.le_add_right _ _)) (fun _ => hoffset) hfirst
  have hsecondary : ∀ queue next, ∀ info ∈ secondaryPositions cfg (foundFrame b index ambiguity),
      inv queue → queueFrameOutput cfg queue info false = some next → inv next :=
    fun queue next info hinfo hinv hnext => hstep queue next info false hinv
      (generated_of_mem_secondaryPositions hoffset hinfo) nofun hnext
  unfold processed
  obtain ⟨-, heq⟩ | ⟨queue, next, hfirst, ⟨hrest, heq⟩ | ⟨hrest, heq⟩⟩ :=
    processBuffer_cases cfg b index ambiguity
  · rw [heq]
    exact hqueue
  · rw [heq]
    exact (queueSecondary_induction inv _ hsecondary (hprimary queue hfirst)).2 next hrest
  · rw [heq]
    exact (queueSecondary_induction inv _ hsecondary (hprimary queue hfirst)).1 next hrest

/-- What all queued tasks and every new one are, all tasks in the constructed queue are. -/
theorem forall_queueSecondary {P : Task env → Prop} {infos : List AsmPosition}
    (hnew : ∀ info ∈ infos, cfg.numHead ≤ info.offset → P (newTask cfg info false))
    {queue next : List (Task env)} (hqueue : ∀ t ∈ queue, P t)
    (hnext : queueSecondary cfg infos queue = .ok next) : ∀ t ∈ next, P t := by
  refine (queueSecondary_induction (fun queue => ∀ t ∈ queue, P t) infos ?_ hqueue).1 next hnext
  intro before after info hinfo hbefore hafter t ht
  rcases mem_queueFrameOutput hafter ht with hold | rfl
  · exact hbefore t hold
  · exact hnew info hinfo (queueFrameOutput_cases hafter).1

/-- What all queued tasks and every generated one are, all tasks are after `processBuffer`. -/
theorem forall_processed {P : Task env → Prop} {b : Block env} (index ambiguity : Nat)
    (hnew : ∀ info primary, cfg.numHead ≤ info.offset → Generated cfg b info →
      P (newTask cfg info primary))
    (hqueue : ∀ t ∈ b.frameQueue, P t) :
    ∀ t ∈ (processed cfg b index ambiguity).frameQueue, P t := by
  refine processed_induction (fun queue => ∀ t ∈ queue, P t) index ambiguity ?_ hqueue
  intro before after info primary hbefore hgenerated _ hafter t ht
  rcases mem_queueFrameOutput hafter ht with hold | rfl
  · exact hbefore t hold
  · exact hnew info primary (queueFrameOutput_cases hafter).1 hgenerated

end Enqueue

section Serve

variable (cfg : Config) (buffer : Buffer env)

/-- The number of symbols that serving a task copies. -/
def Task.toCopy (t : Task env) : Nat :=
  min t.numRemaining (buffer.offsetLastSymbol cfg + 1 - t.copyFrom)

/-- The part of a task that serving it does not change. -/
structure Task.Same (s t : Task env) : Prop where
  numSymbolsTotal : t.numSymbolsTotal = s.numSymbolsTotal
  ambCorrection : t.ambCorrection = s.ambCorrection
  asmPos : t.asmPos = s.asmPos
  primary : t.primary = s.primary
  messageSendOut : t.messageSendOut = s.messageSendOut

/-- Computing the header leaves the copied symbols as they are. -/
structure Task.SameCopy (s t : Task env) : Prop extends Task.Same s t where
  copyFrom : t.copyFrom = s.copyFrom
  numSymbolsCopied : t.numSymbolsCopied = s.numSymbolsCopied
  msgBuffer : t.msgBuffer = s.msgBuffer

theorem startFrame_sameCopy (t : Task env) : t.SameCopy (startFrame cfg buffer t) := by
  unfold startFrame
  dsimp only
  split
  · exact ⟨⟨rfl, rfl, rfl, rfl, rfl⟩, rfl, rfl, rfl⟩
  · exact ⟨⟨rfl, rfl, rfl, rfl, rfl⟩, rfl, rfl, rfl⟩

theorem completeFrame_sameCopy (t : Task env) : t.SameCopy (completeFrame cfg t) := by
  unfold completeFrame
  split
  · exact ⟨⟨rfl, rfl, rfl, rfl, rfl⟩, rfl, rfl, rfl⟩
  · exact ⟨⟨rfl, rfl, rfl, rfl, rfl⟩, rfl, rfl, rfl⟩

theorem completeFrame_headerComputed (t : Task env) :
    (completeFrame cfg t).headerComputed = t.headerComputed := by
  unfold completeFrame
  split <;> rfl

theorem completeFrame_of_incomplete {t : Task env} (ht : ¬ t.dataComplete) :
    completeFrame cfg t = t := by
  rw [completeFrame, if_neg ht]

/-- The header is computed if and only if the whole ASM and one more symbol are in
the buffer. -/
theorem startFrame_headerComputed (t : Task env) :
    (startFrame cfg buffer t).headerComputed ↔ t.headerComputed ∨
      buffer.offsetStart cfg ≤ t.asmPos.offset ∧
        t.asmPos.offset + cfg.asmLen ≤ buffer.offsetLastSymbol cfg := by
  unfold startFrame
  dsimp only
  split
  next h =>
    obtain ⟨hnew, havailable⟩ := Bool.and_eq_true_iff.mp h
    simpa using Or.inr havailable
  next h =>
    constructor
    · exact Or.inl
    · rintro (hcomputed | ⟨hfrom, huntil⟩)
      · exact hcomputed
      · simpa [hfrom, huntil] using h

/-- The three ways to serve a task. -/
theorem serveTask_cases (t : Task env) :
    (t.dataComplete ∨ ¬ t.inRange cfg buffer) ∧ serveTask cfg buffer t = t ∨
      (¬ t.dataComplete ∧ t.inRange cfg buffer) ∧ t.toCopy cfg buffer = 0 ∧
        serveTask cfg buffer t = startFrame cfg buffer t ∨
      (¬ t.dataComplete ∧ t.inRange cfg buffer) ∧ 0 < t.toCopy cfg buffer ∧
        serveTask cfg buffer t = completeFrame cfg
          (copySymbols cfg buffer (t.toCopy cfg buffer) (startFrame cfg buffer t)) := by
  have hsame := startFrame_sameCopy cfg buffer t
  have hcopy : pickSmaller (startFrame cfg buffer t).numRemaining
      (minusCapZero (buffer.offsetLastSymbol cfg + 1) t.copyFrom) = t.toCopy cfg buffer := by
    rw [Task.toCopy, Task.numRemaining, Task.numRemaining, hsame.numSymbolsTotal,
      hsame.numSymbolsCopied, pickSmaller_eq_min, minusCapZero_eq_sub, minusCapZero_eq_sub]
  unfold serveTask
  dsimp only
  rw [hcopy]
  split
  next hcomplete => exact Or.inl ⟨Or.inl hcomplete, rfl⟩
  next hincomplete =>
    split
    next hrange =>
      split
      next hzero => exact Or.inr (Or.inl ⟨⟨hincomplete, hrange⟩, hzero, rfl⟩)
      next hpos => exact Or.inr (Or.inr ⟨⟨hincomplete, hrange⟩, Nat.pos_of_ne_zero hpos, rfl⟩)
    next hrange =>
      exact Or.inl ⟨Or.inr hrange, completeFrame_of_incomplete cfg hincomplete⟩

theorem serveTask_same (t : Task env) : t.Same (serveTask cfg buffer t) := by
  have hstart := startFrame_sameCopy cfg buffer t
  obtain ⟨_, heq⟩ | ⟨_, _, heq⟩ | ⟨_, _, heq⟩ := serveTask_cases cfg buffer t
  · rw [heq]
    exact ⟨rfl, rfl, rfl, rfl, rfl⟩
  · rw [heq]
    exact hstart.toSame
  · rw [heq]
    have hcomplete := completeFrame_sameCopy cfg
      (copySymbols cfg buffer (t.toCopy cfg buffer) (startFrame cfg buffer t))
    exact ⟨hcomplete.numSymbolsTotal.trans hstart.numSymbolsTotal,
      hcomplete.ambCorrection.trans hstart.ambCorrection, hcomplete.asmPos.trans hstart.asmPos,
      hcomplete.primary.trans hstart.primary,
      hcomplete.messageSendOut.trans hstart.messageSendOut⟩

/-- A task in the window moves on by the symbols that serving it copies. -/
theorem serveTask_advances {t : Task env} (hincomplete : ¬ t.dataComplete)
    (hrange : t.inRange cfg buffer) :
    (serveTask cfg buffer t).numSymbolsCopied = t.numSymbolsCopied + t.toCopy cfg buffer ∧
      (serveTask cfg buffer t).copyFrom = t.copyFrom + t.toCopy cfg buffer ∧
      (serveTask cfg buffer t).headerComputed = (startFrame cfg buffer t).headerComputed := by
  have hstart := startFrame_sameCopy cfg buffer t
  obtain ⟨hskip, _⟩ | ⟨_, hzero, heq⟩ | ⟨_, _, heq⟩ := serveTask_cases cfg buffer t
  · rcases hskip with h | h
    · exact absurd h hincomplete
    · exact absurd hrange h
  · rw [heq, hzero]
    exact ⟨hstart.numSymbolsCopied, hstart.copyFrom, rfl⟩
  · have hcomplete := completeFrame_sameCopy cfg
      (copySymbols cfg buffer (t.toCopy cfg buffer) (startFrame cfg buffer t))
    rw [heq]
    refine ⟨hcomplete.numSymbolsCopied.trans ?_, hcomplete.copyFrom.trans ?_,
      completeFrame_headerComputed cfg _⟩
    · exact congrArg (· + _) hstart.numSymbolsCopied
    · exact congrArg (· + _) hstart.copyFrom

/-- A task that is complete or outside of the window stays as it is. -/
theorem serveTask_skips {t : Task env} (hskip : t.dataComplete ∨ ¬ t.inRange cfg buffer) :
    serveTask cfg buffer t = t := by
  obtain ⟨_, heq⟩ | ⟨⟨hincomplete, hrange⟩, _⟩ | ⟨⟨hincomplete, hrange⟩, _⟩ :=
    serveTask_cases cfg buffer t
  · exact heq
  all_goals
    rcases hskip with h | h
    · exact absurd h hincomplete
    · exact absurd hrange h

/-- The served tasks that are not sent out stay in the queue. -/
theorem processFrameQueue_frameQueue {b : Block env}
    (hunsent : ∀ t ∈ b.frameQueue, t.messageSendOut = false) :
    (processFrameQueue cfg b).frameQueue =
      (b.frameQueue.map (serveTask cfg b.buffer)).filter fun t => !t.isReady cfg b.buffer := by
  unfold processFrameQueue
  dsimp only
  rw [List.map_map, List.filter_map, List.filter_map]
  have hkept : ∀ t ∈ b.frameQueue, ((fun t : Task env => !t.messageSendOut) ∘
      (fun t => if t.isReady cfg b.buffer then t.sent else t) ∘ serveTask cfg b.buffer) t =
        ((fun t => !t.isReady cfg b.buffer) ∘ serveTask cfg b.buffer) t := by
    intro t ht
    have hserved : (serveTask cfg b.buffer t).messageSendOut = false :=
      (serveTask_same cfg b.buffer t).messageSendOut.trans (hunsent t ht)
    simp only [Function.comp_apply]
    split
    next hready => simp [Task.sent, hready]
    next hready => simp [hserved, hready]
  rw [List.filter_congr hkept]
  apply List.map_congr_left
  intro t ht
  have hready := (List.mem_filter.mp ht).2
  simp_all

theorem processFrameQueue_published (b : Block env) :
    (processFrameQueue cfg b).published = b.published ++
      ((b.frameQueue.map (serveTask cfg b.buffer)).filter fun t =>
        t.isReady cfg b.buffer).map Task.sent := by
  unfold processFrameQueue Block.published
  dsimp only
  rw [List.filterMap_append, List.filterMap_map]
  congr 1
  exact congrFun List.filterMap_eq_map _

/-- A queued task after the queue has been processed. -/
theorem mem_processFrameQueue {b : Block env}
    (hunsent : ∀ t ∈ b.frameQueue, t.messageSendOut = false) {t : Task env} :
    t ∈ (processFrameQueue cfg b).frameQueue ↔
      ∃ s ∈ b.frameQueue, serveTask cfg b.buffer s = t ∧ ¬ t.isReady cfg b.buffer := by
  simp only [processFrameQueue_frameQueue cfg hunsent, List.mem_filter, List.mem_map,
    Bool.not_eq_true', Bool.not_eq_true]
  constructor
  · rintro ⟨⟨s, hs, heq⟩, hready⟩
    exact ⟨s, hs, heq, hready⟩
  · rintro ⟨s, hs, heq, hready⟩
    exact ⟨⟨s, hs, heq⟩, hready⟩

/-- A published task after the queue has been processed. -/
theorem mem_published_processFrameQueue {b : Block env} {t : Task env} :
    t ∈ (processFrameQueue cfg b).published ↔ t ∈ b.published ∨
      ∃ s ∈ b.frameQueue, (serveTask cfg b.buffer s).isReady cfg b.buffer ∧
        (serveTask cfg b.buffer s).sent = t := by
  simp only [processFrameQueue_published, List.mem_append, List.mem_map, List.mem_filter]
  constructor
  · rintro (hold | ⟨_, ⟨⟨s, hs, rfl⟩, hready⟩, heq⟩)
    · exact Or.inl hold
    · exact Or.inr ⟨s, hs, hready, heq⟩
  · rintro (hold | ⟨s, hs, hready, heq⟩)
    · exact Or.inl hold
    · exact Or.inr ⟨_, ⟨⟨s, hs, rfl⟩, hready⟩, heq⟩

end Serve

end GrCcsds.FrameSync
