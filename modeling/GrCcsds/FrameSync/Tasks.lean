import GrCcsds.FrameSync.Queue

/-! # The copy tasks in a run

A step of the block either leaves its tasks alone, queues generated positions,
processes the queue or flushes it. Every task keeps the position and the symbol
correction of its frame, and copies its symbols without a gap.
-/

namespace GrCcsds.FrameSync

open Utils Foundation

variable {env : Platform} {cfg : Config}

/-- The points after the last time that the queue is processed. -/
def Point.isEnding {Sample : Type} : Point Sample → Bool
  | .flush | .stopped => true
  | _ => false

/-- The points at which the queue is processed. -/
def Point.isServing {Sample : Type} : Point Sample → Bool
  | .serve _ | .finish | .stopServe => true
  | _ => false

theorem Point.not_isEnding_of_isServing {Sample : Type} {p : Point Sample}
    (hp : p.isServing = true) : p.isEnding = false := by
  cases p <;> first | rfl | cases hp

/-- The position of the first symbol of a frame. -/
def frameStart (cfg : Config) (asmOffset : Nat) : Nat :=
  addSignedToUnsigned (asmOffset + cfg.asmLen) (-cfg.head)

/-- The correction of the symbols of a frame. -/
def frameCorrection (env : Platform) (ambiguity : Nat) : env.Sample :=
  env.normalise (env.conj (env.getAmbiguitySymbol ambiguity))

theorem frameStart_eq {asmOffset : Nat} (hoffset : cfg.numHead ≤ asmOffset) :
    (frameStart cfg asmOffset : Int) = asmOffset + cfg.asmLen - cfg.head := by
  have hhead := cfg.numHead_eq
  rw [frameStart, addSignedToUnsigned_eq_toNat]
  push_cast
  omega

/-- What identifies a frame and how far it has been copied. -/
structure Task.WellFormed (cfg : Config) (t : Task env) : Prop where
  numHead_le : cfg.numHead ≤ t.asmPos.offset
  numSymbolsTotal : t.numSymbolsTotal = cfg.outputLen
  ambCorrection : t.ambCorrection = frameCorrection env t.asmPos.ambiguity
  copied_le : t.numSymbolsCopied ≤ t.numSymbolsTotal
  copyFrom : t.copyFrom = frameStart cfg t.asmPos.offset + t.numSymbolsCopied

theorem newTask_wellFormed {info : AsmPosition} (hoffset : cfg.numHead ≤ info.offset)
    (primary : Bool) : (newTask cfg info primary : Task env).WellFormed cfg :=
  ⟨hoffset, rfl, rfl, Nat.zero_le _, rfl⟩

theorem Task.WellFormed.of_sameCopy {s t : Task env} (hs : s.WellFormed cfg)
    (hsame : s.SameCopy t) : t.WellFormed cfg := by
  constructor
  · rw [hsame.asmPos]
    exact hs.numHead_le
  · rw [hsame.numSymbolsTotal]
    exact hs.numSymbolsTotal
  · rw [hsame.ambCorrection, hsame.asmPos]
    exact hs.ambCorrection
  · rw [hsame.numSymbolsCopied, hsame.numSymbolsTotal]
    exact hs.copied_le
  · rw [hsame.copyFrom, hsame.asmPos, hsame.numSymbolsCopied]
    exact hs.copyFrom

theorem Task.WellFormed.copySymbols {t : Task env} (ht : t.WellFormed cfg)
    (buffer : Buffer env) {toCopy : Nat} (hcopy : toCopy ≤ t.numRemaining) :
    (FrameSync.copySymbols cfg buffer toCopy t).WellFormed cfg := by
  have hle := ht.copied_le
  have hfrom := ht.copyFrom
  rw [Task.numRemaining, minusCapZero_eq_sub] at hcopy
  refine ⟨ht.numHead_le, ht.numSymbolsTotal, ht.ambCorrection, ?_, ?_⟩
  · change t.numSymbolsCopied + toCopy ≤ t.numSymbolsTotal
    omega
  · change t.copyFrom + toCopy = frameStart cfg t.asmPos.offset + (t.numSymbolsCopied + toCopy)
    omega

theorem Task.WellFormed.serveTask {t : Task env} (ht : t.WellFormed cfg)
    (buffer : Buffer env) : (serveTask cfg buffer t).WellFormed cfg := by
  have hstart := startFrame_sameCopy cfg buffer t
  obtain ⟨_, heq⟩ | ⟨_, _, heq⟩ | ⟨_, _, heq⟩ := serveTask_cases cfg buffer t
  · rw [heq]
    exact ht
  · rw [heq]
    exact ht.of_sameCopy hstart
  · rw [heq]
    refine Task.WellFormed.of_sameCopy ?_ (completeFrame_sameCopy cfg _)
    apply (ht.of_sameCopy hstart).copySymbols
    rw [Task.numRemaining, hstart.numSymbolsTotal, hstart.numSymbolsCopied]
    exact Nat.min_le_left _ _

theorem Task.WellFormed.sent {t : Task env} (ht : t.WellFormed cfg) : t.sent.WellFormed cfg :=
  ⟨ht.numHead_le, ht.numSymbolsTotal, ht.ambCorrection, ht.copied_le, ht.copyFrom⟩

/-- What flushing does to a task. -/
theorem flushTask_cases {t s : Task env} (hflush : flushTask t = some s) :
    t.messageSendOut = false ∧ 0 < t.numSymbolsCopied ∧
      (t.numSymbolsCopied < t.numSymbolsTotal ∧
          s = { t with
            header := t.header.add "frame_complete" (.bool false)
            messageSendOut := true } ∨
        t.numSymbolsTotal ≤ t.numSymbolsCopied ∧ s = t.sent) := by
  unfold flushTask at hflush
  split at hflush
  next => cases hflush
  next hunsent =>
    split at hflush
    next => cases hflush
    next hcopied =>
      refine ⟨Bool.eq_false_iff.mpr hunsent, Nat.pos_of_ne_zero hcopied, ?_⟩
      rw [Task.numRemaining, minusCapZero_eq_sub] at hflush
      split at hflush
      next hremaining =>
        cases hflush
        exact Or.inl ⟨by omega, rfl⟩
      next hremaining =>
        cases hflush
        exact Or.inr ⟨by omega, rfl⟩

theorem flushTask_asmPos {t s : Task env} (hflush : flushTask t = some s) :
    s.asmPos = t.asmPos := by
  obtain ⟨_, _, ⟨_, rfl⟩ | ⟨_, rfl⟩⟩ := flushTask_cases hflush
  · rfl
  · rfl

theorem Task.WellFormed.flushTask {t s : Task env} (ht : t.WellFormed cfg)
    (hflush : flushTask t = some s) : s.WellFormed cfg := by
  obtain ⟨_, _, ⟨_, rfl⟩ | ⟨_, rfl⟩⟩ := flushTask_cases hflush
  · exact ⟨ht.numHead_le, ht.numSymbolsTotal, ht.ambCorrection, ht.copied_le, ht.copyFrom⟩
  · exact ht.sent

theorem flushFrames_published (b : Block env) :
    (flushFrames b).published = b.published ++ b.frameQueue.filterMap flushTask := by
  unfold flushFrames Block.published
  dsimp only
  rw [List.filterMap_append, List.filterMap_append, List.filterMap_map]
  simp only [Output.task?, List.filterMap_cons, List.filterMap_nil, List.append_nil]
  congr 1
  exact (congrFun List.filterMap_eq_map _).trans (List.map_id _)

theorem construct_eq {additional : List AsmPosition} {b : Block env}
    (hb : construct cfg additional = some b) :
    ∃ queue, queueSecondary cfg additional [] = .ok queue ∧
      b = { Block.initial cfg with frameQueue := queue } := by
  unfold construct at hb
  split at hb
  next => cases hb
  next queue hqueue =>
    cases hb
    exact ⟨queue, hqueue, rfl⟩

namespace Machine

/-- What a step can do to the tasks of the block. -/
inductive TaskMoves (cfg : Config) (m next : Machine env) : Prop where
  | keep (hpoint : m.point.isEnding = false)
    (hqueue : next.block.frameQueue = m.block.frameQueue)
    (hout : next.block.out = m.block.out)
    (hoffset : m.block.buffer.offset ≤ next.block.buffer.offset)
  | enqueue (hpoint : m.point.isEnding = false) (index ambiguity : Nat)
    (hblock : next.block = processed cfg m.block index ambiguity)
  | serve (hpoint : m.point.isServing = true) (hreceived : next.received = m.received)
    (hnext : m.point = .stopServe → next.point = .flush)
    (hblock : next.block = processFrameQueue cfg m.block)
  | flush (hpoint : m.point = .flush) (hreceived : next.received = m.received)
    (hnext : next.point = .stopped) (hblock : next.block = flushFrames m.block)

theorem Moves.tasks {m next : Machine env} {label : Label env.Sample}
    (hmoves : Moves cfg m label next) : TaskMoves cfg m next := by
  cases hmoves with
  | call _ hpoint | leave hpoint | read _ _ hpoint =>
      exact .keep (by rw [hpoint]; rfl) rfl rfl (Nat.le_refl _)
  | search _ index ambiguity hpoint _ | stopSearch _ index ambiguity hpoint _ =>
      exact .enqueue (by rw [hpoint]; rfl) index ambiguity (search_block ..)
  | serve _ hpoint | finish hpoint =>
      exact .serve (by rw [hpoint]; rfl) rfl (by simp [hpoint]) rfl
  | advance rest hpoint => exact .keep (by rw [hpoint]; rfl) rfl rfl (Nat.le_add_right _ _)
  | stop hpoint =>
      have hnot : m.point.isEnding = false := by rcases hpoint with h | h <;> rw [h] <;> rfl
      unfold beginStop
      split
      · exact .keep hnot rfl rfl (Nat.le_refl _)
      · exact .keep hnot rfl rfl (Nat.le_refl _)
  | stopServe hpoint => exact .serve (by rw [hpoint]; rfl) rfl (fun _ => rfl) rfl
  | flush hpoint => exact .flush hpoint rfl rfl rfl

/-- A step at which the block has stopped does not exist. -/
theorem Moves.point_ne_stopped {m next : Machine env} {label : Label env.Sample}
    (hmoves : Moves cfg m label next) : m.point ≠ .stopped := by
  cases hmoves with
  | stop hpoint => rcases hpoint with h | h <;> simp [h]
  | _ => simp_all

/-- The tasks of a machine are well formed, and none in the queue has been sent out. -/
structure TasksWell (cfg : Config) (m : Machine env) : Prop where
  queued : ∀ t ∈ m.block.frameQueue, t.WellFormed cfg
  published : ∀ t ∈ m.block.published, t.WellFormed cfg
  unsent : m.point ≠ .stopped → ∀ t ∈ m.block.frameQueue, t.messageSendOut = false

theorem tasksWell_start {additional : List AsmPosition} {b : Block env}
    (hb : construct cfg additional = some b) : TasksWell cfg (start b) := by
  obtain ⟨queue, hqueue, rfl⟩ := construct_eq hb
  have hwell : ∀ t ∈ queue, t.WellFormed cfg ∧ t.messageSendOut = false :=
    forall_queueSecondary (fun _ _ hoffset => ⟨newTask_wellFormed hoffset _, rfl⟩) (by simp) hqueue
  exact ⟨fun t ht => (hwell t ht).1, nofun, fun _ t ht => (hwell t ht).2⟩

theorem TasksWell.step {m next : Machine env} {label : Label env.Sample}
    (hwell : TasksWell cfg m) (hmoves : Moves cfg m label next) : TasksWell cfg next := by
  have hunsent := hwell.unsent hmoves.point_ne_stopped
  cases hmoves.tasks with
  | keep _ hqueue hout _ =>
      refine ⟨hqueue ▸ hwell.queued, ?_, fun _ => hqueue ▸ hunsent⟩
      rw [Block.published, hout]
      exact hwell.published
  | enqueue _ index ambiguity hblock =>
      have hkeep : ∀ t ∈ (processed cfg m.block index ambiguity).frameQueue,
          t.WellFormed cfg ∧ t.messageSendOut = false :=
        forall_processed index ambiguity
          (fun _ _ hoffset _ => ⟨newTask_wellFormed hoffset _, rfl⟩)
          fun t ht => ⟨hwell.queued t ht, hunsent t ht⟩
      refine ⟨?_, ?_, ?_⟩
      · rw [hblock]
        exact fun t ht => (hkeep t ht).1
      · rw [Block.published, hblock, processed_out]
        exact hwell.published
      · rw [hblock]
        exact fun _ t ht => (hkeep t ht).2
  | serve _ _ _ hblock =>
      refine ⟨?_, ?_, ?_⟩
      · intro t ht
        rw [hblock, mem_processFrameQueue cfg hunsent] at ht
        obtain ⟨s, hs, rfl, _⟩ := ht
        exact (hwell.queued s hs).serveTask _
      · intro t ht
        rw [hblock, mem_published_processFrameQueue] at ht
        obtain hold | ⟨s, hs, _, rfl⟩ := ht
        · exact hwell.published t hold
        · exact ((hwell.queued s hs).serveTask _).sent
      · intro _ t ht
        rw [hblock, mem_processFrameQueue cfg hunsent] at ht
        obtain ⟨s, hs, rfl, _⟩ := ht
        exact (serveTask_same cfg _ s).messageSendOut.trans (hunsent s hs)
  | flush _ _ hnext hblock =>
      refine ⟨?_, ?_, fun hne => absurd hnext hne⟩
      · intro t ht
        rw [hblock] at ht
        obtain ⟨s, hs, rfl⟩ := List.mem_map.mp ht
        cases hflush : flushTask s with
        | none => exact hwell.queued s hs
        | some t => exact (hwell.queued s hs).flushTask hflush
      · intro t ht
        rw [hblock, flushFrames_published, List.mem_append] at ht
        obtain hold | hnew := ht
        · exact hwell.published t hold
        · obtain ⟨s, hs, hflush⟩ := List.mem_filterMap.mp hnew
          exact (hwell.queued s hs).flushTask hflush

/-- Symbols are only ever added to the received ones. -/
theorem Moves.received_prefix {m next : Machine env} {label : Label env.Sample}
    (hmoves : Moves cfg m label next) : m.received <+: next.received := by
  cases hmoves with
  | read rest hrest hpoint =>
      rw [readNext_received]
      exact List.prefix_append _ _
  | search | stopSearch => exact (search_received ..).symm ▸ List.prefix_rfl
  | stop hpoint =>
      unfold beginStop
      split <;> exact List.prefix_rfl
  | _ => exact List.prefix_rfl

/-- The invariants of the buffer and of the tasks that hold in every run. -/
structure Sound (cfg : Config) (m : Machine env) : Prop where
  counts : Counts cfg m
  holds : HoldsReceived cfg m
  well : TasksWell cfg m

theorem sound_start {additional : List AsmPosition} {b : Block env}
    (hb : construct cfg additional = some b) : Sound cfg (start b) := by
  have hwell := tasksWell_start hb
  obtain ⟨queue, _, rfl⟩ := construct_eq hb
  exact ⟨counts_start rfl, nofun, hwell⟩

theorem Sound.step {m next : Machine env} {label : Label env.Sample} (hsound : Sound cfg m)
    (hmoves : Moves cfg m label next) : Sound cfg next :=
  ⟨hsound.counts.step hmoves, hsound.holds.step hsound.counts hmoves, hsound.well.step hmoves⟩

section Runs

variable {additional : List AsmPosition} {b : Block env}
  {allowed : Machine env → Label env.Sample → Prop} {m : Machine env}

theorem sound_of_reachable (hb : construct cfg additional = some b)
    (hreachable : Transition.Reachable (step cfg) allowed (start b) m) : Sound cfg m :=
  hreachable.invariant (sound_start hb) fun _ _ _ hsound _ hstep =>
    hsound.step (moves_of_step hstep)

/-- The invariant rule of the block. A step may use what is known of every reachable state. -/
theorem invariant_of_reachable (hb : construct cfg additional = some b)
    {inv : Machine env → Prop} (hreachable : Transition.Reachable (step cfg) allowed (start b) m)
    (hstart : inv (start b))
    (hstep : ∀ s label next, Transition.Reachable (step cfg) allowed (start b) s →
      Sound cfg s → inv s → allowed s label → Moves cfg s label next → inv next) : inv m := by
  apply hreachable.invariant_along hstart
  intro s label next hreached hinv hallowed hstepped
  exact hstep s label next hreached (sound_of_reachable hb hreached) hinv hallowed
    (moves_of_step hstepped)

end Runs

end Machine

end GrCcsds.FrameSync
