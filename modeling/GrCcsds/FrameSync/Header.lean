import GrCcsds.FrameSync.Make
import GrCcsds.FrameSync.Service

/-! # The headers of the published frames

A header is computed when the whole ASM and one more symbol are in the buffer,
symbols are copied as soon as they are there. A frame is published with its
header as long as its last output symbol does not arrive before that, and at the
end of the stream not even its first one.
-/

namespace GrCcsds.FrameSync

open Utils Foundation

variable {env : Platform} {cfg : Config}

section Entries

/-- The entries that tell which frame a message belongs to. -/
def identifyingKeys : List String := ["asm_offset", "asm_ambiguity", "asm_score"]

/-- The tags of the first symbol replace no identifying entry. -/
def Platform.KeepsEntries (env : Platform) : Prop :=
  ∀ key ∈ identifyingKeys, env.extraTags key = none

/-- The header of a task has been computed. It tells the position and carries a score. -/
structure Task.Identified (t : Task env) : Prop where
  headerComputed : t.headerComputed = true
  asmOffset : env.KeepsEntries →
    t.header "asm_offset" = some (.uint64 (t.asmPos.offset * env.bitsPerSymbol))
  asmAmbiguity : env.KeepsEntries → t.header "asm_ambiguity" = some (.uint64 t.asmPos.ambiguity)
  asmScore : env.KeepsEntries → ∃ score, t.header "asm_score" = some (.float score)

/-- Other entries do not matter. -/
theorem Task.Identified.of_header {s t : Task env} (hs : s.Identified)
    (hasmPos : t.asmPos = s.asmPos) (hcomputed : t.headerComputed = s.headerComputed)
    (hheader : ∀ key ∈ identifyingKeys, t.header key = s.header key) : t.Identified := by
  have hoffset := hheader "asm_offset" (by decide)
  have hambiguity := hheader "asm_ambiguity" (by decide)
  have hscore := hheader "asm_score" (by decide)
  constructor
  · rw [hcomputed, hs.headerComputed]
  · rw [hoffset, hasmPos]
    exact hs.asmOffset
  · rw [hambiguity, hasmPos]
    exact hs.asmAmbiguity
  · rw [hscore]
    exact hs.asmScore

variable (cfg)

theorem generateHeader_identifies (info : AsmHeader env) (bitsPerSymbol blockLenSymbols : Nat)
    (oldHeader : Dict env.Float) :
    info.generateHeader bitsPerSymbol blockLenSymbols oldHeader "asm_offset" =
        some (.uint64 (info.position.offset * bitsPerSymbol)) ∧
      info.generateHeader bitsPerSymbol blockLenSymbols oldHeader "asm_ambiguity" =
        some (.uint64 info.position.ambiguity) ∧
      info.generateHeader bitsPerSymbol blockLenSymbols oldHeader "asm_score" =
        some (.float info.score) := by
  by_cases hsequence : (info.position.sequence != sequenceUnused) = true
  · simp [AsmHeader.generateHeader, hsequence, Dict.add]
  · simp [AsmHeader.generateHeader, hsequence, Dict.add]

theorem startFrame_identified (buffer : Buffer env) {t : Task env}
    (ht : t.headerComputed = true → t.Identified)
    (hcomputed : (startFrame cfg buffer t).headerComputed = true) :
    (startFrame cfg buffer t).Identified := by
  unfold startFrame at hcomputed ⊢
  dsimp only at hcomputed ⊢
  split at hcomputed
  next hnew =>
    rw [if_pos hnew]
    obtain ⟨hoffset, hambiguity, hscore⟩ := generateHeader_identifies
      (computeSingleScore cfg buffer t.asmPos t.primary) env.bitsPerSymbol cfg.blockLen t.header
    constructor
    · rfl
    · intro htags
      exact (Dict.update_of_none _ (htags _ (by decide))).trans hoffset
    · intro htags
      exact (Dict.update_of_none _ (htags _ (by decide))).trans hambiguity
    · intro htags
      exact ⟨_, (Dict.update_of_none _ (htags _ (by decide))).trans hscore⟩
  next hnew =>
    rw [if_neg hnew]
    exact ht hcomputed

theorem completeFrame_header (t : Task env) :
    ∀ key ∈ identifyingKeys, (completeFrame cfg t).header key = t.header key := by
  intro key hkey
  have hne : key ≠ "frame_complete" ∧ key ≠ "frame_payload_offset" ∧ key ≠ "frame_number" := by
    revert key
    decide
  unfold completeFrame
  split
  · simp [Dict.add_of_ne _ _ hne.1, Dict.add_of_ne _ _ hne.2.1, Dict.add_of_ne _ _ hne.2.2]
  · rfl

end Entries

namespace Task

/-- When the queue is processed, the ASM of a frame and one more symbol must be in the buffer
if its last output symbol is, at the end of the stream if its first one is. A frame without
output symbols must not be due. -/
def HeaderInTime (cfg : Config) (buffer : Buffer env) (stopping : Prop) (t : Task env) : Prop :=
  if cfg.outputLen = 0 then sendThreshold cfg buffer ≤ t.asmPos.offset
  else
    frameStart cfg t.asmPos.offset + cfg.outputLen ≤ buffer.offsetLastSymbol cfg + 1 ∨
        stopping ∧ frameStart cfg t.asmPos.offset ≤ buffer.offsetLastSymbol cfg →
      t.asmPos.offset + cfg.asmLen ≤ buffer.offsetLastSymbol cfg

/-- A complete task has its header, and a started task without one can still get it. -/
structure Headed (cfg : Config) (buffer : Buffer env) (t : Task env) : Prop where
  identified : t.headerComputed = true → t.Identified
  complete : t.dataComplete → cfg.outputLen ≠ 0 → t.headerComputed = true
  copied : 0 < t.numSymbolsCopied → t.copyFrom ≤ buffer.offsetLastSymbol cfg + 1
  servable : 0 < t.numSymbolsCopied → t.headerComputed = false →
    t.Servable (buffer.offsetStart cfg)

variable {buffer : Buffer env} {t : Task env}

theorem newTask_headed (info : AsmPosition) (primary : Bool) :
    (newTask cfg info primary : Task env).Headed cfg buffer where
  identified := nofun
  complete := fun hcomplete hne => absurd (dataComplete_iff.mp hcomplete).symm hne
  copied := fun hcopied => absurd hcopied (Nat.lt_irrefl 0)
  servable := fun hcopied => absurd hcopied (Nat.lt_irrefl 0)

/-- More symbols do no harm, as long as the window does not slide. -/
theorem Headed.mono {later : Buffer env} (ht : t.Headed cfg buffer)
    (hstart : later.offsetStart cfg = buffer.offsetStart cfg)
    (hlast : buffer.offsetLastSymbol cfg ≤ later.offsetLastSymbol cfg) : t.Headed cfg later where
  identified := ht.identified
  complete := ht.complete
  copied := fun hcopied => Nat.le_trans (ht.copied hcopied) (Nat.succ_le_succ hlast)
  servable := hstart ▸ ht.servable

theorem servable_of_inRange (hrange : t.inRange cfg buffer) :
    t.Servable (buffer.offsetStart cfg) := by
  refine Or.inr ⟨le_copyFrom_of_inRange hrange, ?_⟩
  cases hcomputed : t.headerComputed with
  | true => exact Or.inl rfl
  | false => exact Or.inr (le_asmOffset_of_inRange hrange hcomputed)

/-- A task in the window gets its header if the window reaches far enough. -/
theorem headerComputed_serveTask (hincomplete : ¬ t.dataComplete) (hrange : t.inRange cfg buffer)
    (hasm : t.asmPos.offset + cfg.asmLen ≤ buffer.offsetLastSymbol cfg) :
    (serveTask cfg buffer t).headerComputed = true := by
  obtain ⟨_, _, hcomputed⟩ := serveTask_advances cfg buffer hincomplete hrange
  rw [hcomputed, startFrame_headerComputed]
  cases hold : t.headerComputed with
  | true => exact Or.inl rfl
  | false => exact Or.inr ⟨le_asmOffset_of_inRange hrange hold, hasm⟩

theorem serveTask_identified (ht : t.headerComputed = true → t.Identified)
    (hcomputed : (serveTask cfg buffer t).headerComputed = true) :
    (serveTask cfg buffer t).Identified := by
  obtain ⟨_, heq⟩ | ⟨_, _, heq⟩ | ⟨_, _, heq⟩ := serveTask_cases cfg buffer t
  · rw [heq] at hcomputed ⊢
    exact ht hcomputed
  · rw [heq] at hcomputed ⊢
    exact startFrame_identified cfg buffer ht hcomputed
  · rw [heq] at hcomputed ⊢
    rw [completeFrame_headerComputed] at hcomputed
    have hstarted := startFrame_identified cfg buffer ht hcomputed
    have hcopied : (copySymbols cfg buffer (t.toCopy cfg buffer)
        (startFrame cfg buffer t)).Identified := hstarted.of_header rfl rfl fun _ _ => rfl
    exact hcopied.of_header (completeFrame_sameCopy cfg _).asmPos
      (completeFrame_headerComputed cfg _) (completeFrame_header cfg _)

/-- What serving a task in time gives. -/
structure HeadedServe (cfg : Config) (buffer : Buffer env) (stopping : Prop) (t : Task env) :
    Prop where
  headed : t.Headed cfg buffer
  served : 0 < t.numSymbolsCopied → t.headerComputed = false →
    t.Served cfg (buffer.offsetLastSymbol cfg + 1)
  stopping : stopping → 0 < t.numSymbolsCopied → t.headerComputed = true

theorem Headed.serveTask {stopping : Prop} (ht : t.Headed cfg buffer) (hwell : t.WellFormed cfg)
    (htime : t.HeaderInTime cfg buffer stopping) :
    (FrameSync.serveTask cfg buffer t).HeadedServe cfg buffer stopping := by
  have htotal := hwell.numSymbolsTotal
  have hcopyFrom := hwell.copyFrom
  have hidentified : (FrameSync.serveTask cfg buffer t).headerComputed = true →
      (FrameSync.serveTask cfg buffer t).Identified := serveTask_identified ht.identified
  by_cases hcomplete : t.dataComplete
  · rw [dataComplete_serveTask hcomplete]
    refine ⟨ht, fun _ _ => Or.inl hcomplete, fun _ hcopied => ht.complete hcomplete ?_⟩
    have hall := dataComplete_iff.mp hcomplete
    omega
  have hle := hwell.copied_le
  have hsome : cfg.outputLen ≠ 0 := by
    intro hzero
    exact hcomplete (dataComplete_iff.mpr (by omega))
  rw [HeaderInTime, if_neg hsome] at htime
  -- in the window the task moves on, outside of it everything stays as it was
  by_cases hrange : t.inRange cfg buffer
  · obtain ⟨hcopied, hfrom, -⟩ := serveTask_advances cfg buffer hcomplete hrange
    have htoCopy : t.toCopy cfg buffer ≤ buffer.offsetLastSymbol cfg + 1 - t.copyFrom :=
      Nat.min_le_right _ _
    have hheader := headerComputed_serveTask hcomplete hrange
    have hservable := servable_of_inRange hrange
    have hbound : 0 < t.numSymbolsCopied + t.toCopy cfg buffer →
        t.copyFrom + t.toCopy cfg buffer ≤ buffer.offsetLastSymbol cfg + 1 := by
      intro hpos
      by_cases hnone : t.toCopy cfg buffer = 0
      · have hold := ht.copied (by omega)
        omega
      · omega
    refine ⟨⟨hidentified, ?_, ?_, fun _ _ => hservable.serveTask⟩,
      fun _ _ => hservable.served hwell, ?_⟩
    · intro hcomplete' _
      rw [dataComplete_iff, (serveTask_same cfg buffer t).numSymbolsTotal, hcopied] at hcomplete'
      have hlast := hbound (by omega)
      exact hheader (htime (Or.inl (by omega)))
    · rw [hcopied, hfrom]
      exact hbound
    · intro hstopping hpos
      rw [hcopied] at hpos
      have hlast := hbound hpos
      exact hheader (htime (Or.inr ⟨hstopping, by omega⟩))
  · have hserve := serveTask_skips cfg buffer (Or.inr hrange)
    have hserved : 0 < t.numSymbolsCopied → t.headerComputed = false →
        t.Served cfg (buffer.offsetLastSymbol cfg + 1) := by
      intro hcopied hcomputed
      exact hserve ▸ (ht.servable hcopied hcomputed).served hwell
    rw [hserve]
    refine ⟨ht, hserved, ?_⟩
    intro hstopping hcopied
    by_contra hcomputed
    have hnone := Bool.eq_false_iff.mpr hcomputed
    have hlast := ht.copied hcopied
    have hasm := htime (Or.inr ⟨hstopping, by omega⟩)
    have hwaits := ((hserved hcopied hnone).resolve_left hcomplete).2.resolve_left hcomputed
    omega

/-- A frame that is due has its header. -/
theorem Headed.identified_of_isReady {stopping : Prop} (ht : t.Headed cfg buffer)
    (htime : t.HeaderInTime cfg buffer stopping) (hready : t.isReady cfg buffer) :
    t.Identified := by
  simp only [isReady, Bool.and_eq_true, decide_eq_true_eq] at hready
  apply ht.identified
  apply ht.complete hready.1.1
  intro hzero
  rw [HeaderInTime, if_pos hzero] at htime
  omega

theorem HeaderInTime.of_same {s : Task env} {stopping : Prop}
    (hs : s.HeaderInTime cfg buffer stopping) (hsame : s.Same t) :
    t.HeaderInTime cfg buffer stopping := by
  unfold HeaderInTime
  rw [hsame.asmPos]
  exact hs

end Task

namespace Machine

/-- Every queued frame gets its header in time if the queue is processed now. -/
def HeadersInTime (cfg : Config) (m : Machine env) : Prop :=
  m.point.isServing = true →
    ∀ t ∈ m.block.frameQueue, t.HeaderInTime cfg m.block.buffer (m.point = .stopServe)

structure Headers (cfg : Config) (m : Machine env) : Prop where
  queued : m.point ≠ .stopped → ∀ t ∈ m.block.frameQueue, t.Headed cfg m.block.buffer
  served : (∃ rest, m.point = .advance rest) → ∀ t ∈ m.block.frameQueue,
    0 < t.numSymbolsCopied → t.headerComputed = false →
      t.Served cfg (m.block.buffer.offsetLastSymbol cfg + 1)
  flushing : m.point = .flush → ∀ t ∈ m.block.frameQueue,
    0 < t.numSymbolsCopied → t.headerComputed = true
  published : ∀ t ∈ m.block.published, t.Identified

theorem headers_start {additional : List AsmPosition} {b : Block env}
    (hb : construct cfg additional = some b) : Headers cfg (start b) := by
  obtain ⟨queue, hqueue, rfl⟩ := construct_eq hb
  refine ⟨fun _ => ?_, by simp [start], by simp [start], nofun⟩
  exact forall_queueSecondary (fun _ _ _ => Task.newTask_headed _ _) (by simp) hqueue

/-- A step that leaves the tasks alone and does not slide the window. -/
theorem Headers.keep {m next : Machine env} (hheaders : Headers cfg m)
    (hstopped : m.point ≠ .stopped) (hqueue : next.block.frameQueue = m.block.frameQueue)
    (hout : next.block.out = m.block.out)
    (hoffset : next.block.buffer.offsetCounter = m.block.buffer.offsetCounter)
    (hitems : m.block.buffer.numItems ≤ next.block.buffer.numItems)
    (hadvance : ∀ rest, next.point ≠ .advance rest) (hflush : next.point ≠ .flush) :
    Headers cfg next := by
  have hstart : next.block.buffer.offsetStart cfg = m.block.buffer.offsetStart cfg := by
    simp [Buffer.offsetStart_eq, hoffset]
  have hlast : m.block.buffer.offsetLastSymbol cfg ≤ next.block.buffer.offsetLastSymbol cfg := by
    simp only [Buffer.offsetLastSymbol_eq, hoffset, minusCapZero_eq_sub]
    omega
  refine ⟨?_, ?_, fun h => absurd h hflush, ?_⟩
  · intro _ t ht
    rw [hqueue] at ht
    exact (hheaders.queued hstopped t ht).mono hstart hlast
  · rintro ⟨rest, h⟩
    exact absurd h (hadvance rest)
  · rw [Block.published, hout]
    exact hheaders.published

theorem Headers.enqueue {m : Machine env} (hheaders : Headers cfg m)
    (hstopped : m.point ≠ .stopped) (index ambiguity : Nat) {success failure : Point env.Sample}
    (hadvance : ∀ rest, success ≠ .advance rest ∧ failure ≠ .advance rest)
    (hflush : success ≠ .flush ∧ failure ≠ .flush) :
    Headers cfg (m.search cfg index ambiguity success failure) := by
  have hpoint := search_point cfg m index ambiguity success failure
  refine ⟨?_, ?_, ?_, ?_⟩
  · intro _
    rw [search_block, processed_buffer]
    exact forall_processed index ambiguity (fun _ _ _ _ => Task.newTask_headed _ _)
      (hheaders.queued hstopped)
  · rintro ⟨rest, h⟩
    rcases hpoint with hp | hp
    · exact absurd (hp.symm.trans h) (hadvance rest).1
    · exact absurd (hp.symm.trans h) (hadvance rest).2
  · intro h
    rcases hpoint with hp | hp
    · exact absurd (hp.symm.trans h) hflush.1
    · exact absurd (hp.symm.trans h) hflush.2
  · rw [search_block, Block.published, processed_out]
    exact hheaders.published

/-- Processing the queue in time. -/
theorem Headers.serve {m next : Machine env} (hheaders : Headers cfg m) (hwell : TasksWell cfg m)
    (hstopped : m.point ≠ .stopped) (hserving : m.point.isServing = true)
    (htime : HeadersInTime cfg m) (hblock : next.block = processFrameQueue cfg m.block)
    (hflush : next.point = .flush → m.point = .stopServe) : Headers cfg next := by
  have hunsent := hwell.unsent hstopped
  have hserve : ∀ s ∈ m.block.frameQueue, (serveTask cfg m.block.buffer s).HeadedServe cfg
      m.block.buffer (m.point = .stopServe) := fun s hs =>
    (hheaders.queued hstopped s hs).serveTask (hwell.queued s hs) (htime hserving s hs)
  have hqueue : ∀ t ∈ next.block.frameQueue, t.HeadedServe cfg m.block.buffer
      (m.point = .stopServe) := by
    intro t ht
    rw [hblock, mem_processFrameQueue cfg hunsent] at ht
    obtain ⟨s, hs, rfl, _⟩ := ht
    exact hserve s hs
  have hbuffer : next.block.buffer = m.block.buffer := by
    rw [hblock, processFrameQueue_buffer]
  refine ⟨?_, ?_, ?_, ?_⟩
  · intro _ t ht
    rw [hbuffer]
    exact (hqueue t ht).headed
  · intro _ t ht
    rw [hbuffer]
    exact (hqueue t ht).served
  · intro hpoint t ht
    exact (hqueue t ht).stopping (hflush hpoint)
  · intro t ht
    rw [hblock, mem_published_processFrameQueue] at ht
    obtain hold | ⟨s, hs, hready, rfl⟩ := ht
    · exact hheaders.published t hold
    · have htime' := (htime hserving s hs).of_same (serveTask_same cfg m.block.buffer s)
      exact ((hserve s hs).headed.identified_of_isReady htime' hready).of_header rfl rfl
        fun _ _ => rfl

/-- A started task without a header has extra head symbols, so that the history of the buffer
keeps its ASM. -/
theorem Headers.advance {m next : Machine env} (hheaders : Headers cfg m) (hsound : Sound cfg m)
    {rest : List env.Sample} (hpoint : m.point = .advance rest) (hnext : next.point = .loop rest)
    (hblock : next.block = { m.block with buffer := m.block.buffer.advance cfg }) :
    Headers cfg next := by
  have hstopped : m.point ≠ .stopped := by simp [hpoint]
  have hfull := hsound.counts.full (by rw [hpoint]; rfl)
  have hlen := bufferLen_eq cfg
  have hpos := cfg.blockLen_pos
  have hlast : m.block.buffer.offsetLastSymbol cfg ≤
      (m.block.buffer.advance cfg).offsetLastSymbol cfg := by
    simp only [Buffer.offsetLastSymbol_eq, Buffer.advance_offsetCounter, Buffer.advance_numItems,
      minusCapZero_eq_sub]
    omega
  refine ⟨?_, by simp [hnext], by simp [hnext], ?_⟩
  · intro _ t ht
    rw [hblock] at ht ⊢
    have hheaded := hheaders.queued hstopped t ht
    have hwell := hsound.well.queued t ht
    refine ⟨hheaded.identified, hheaded.complete,
      fun hcopied => Nat.le_trans (hheaded.copied hcopied) (Nat.succ_le_succ hlast), ?_⟩
    intro hcopied hcomputed
    have hserved := hheaders.served ⟨rest, hpoint⟩ t ht hcopied hcomputed
    by_cases hcomplete : t.dataComplete
    · exact Or.inl hcomplete
    -- the task has copied a symbol of the buffer, but waits for its ASM
    have hhead : 0 < cfg.head := by
      have hwaits := (hserved.resolve_left hcomplete).2.resolve_left (by simp [hcomputed])
      have hbound := hheaded.copied hcopied
      have hcopyFrom := hwell.copyFrom
      have hstart := frameStart_eq hwell.numHead_le
      omega
    refine hserved.servable hwell (Or.inr (Or.inr (Or.inl hhead))) hsound.counts.aligned ?_
    rw [Buffer.offsetLastSymbol_eq, minusCapZero_eq_sub]
    omega
  · rw [Block.published, hblock]
    exact hheaders.published

theorem Headers.step {m next : Machine env} {label : Label env.Sample} (hheaders : Headers cfg m)
    (hsound : Sound cfg m) (htime : HeadersInTime cfg m) (hmoves : Moves cfg m label next) :
    Headers cfg next := by
  have hstopped := hmoves.point_ne_stopped
  cases hmoves with
  | call | leave =>
      exact hheaders.keep hstopped rfl rfl rfl (Nat.le_refl _) (by simp) (by simp)
  | read rest hrest hpoint =>
      refine hheaders.keep hstopped rfl rfl rfl ?_ ?_ ?_
      · rw [readNext_block, readChunk_numItems]
        exact Nat.le_add_right _ _
      all_goals
        rw [readNext_point]
        split <;> simp
  | search rest index ambiguity hpoint hindex =>
      exact hheaders.enqueue hstopped index ambiguity (by simp) (by simp)
  | serve rest hpoint =>
      exact hheaders.serve hsound.well hstopped (by rw [hpoint]; rfl) htime rfl (by simp)
  | advance rest hpoint => exact hheaders.advance hsound hpoint rfl rfl
  | finish hpoint =>
      exact hheaders.serve hsound.well hstopped (by rw [hpoint]; rfl) htime rfl (by simp)
  | stop hpoint =>
      unfold beginStop
      split
      · exact hheaders.keep hstopped rfl rfl rfl (Nat.le_refl _) (by simp) (by simp)
      · refine hheaders.keep hstopped rfl rfl rfl ?_ (by simp) (by simp)
        change _ ≤ (fillOverlap cfg m.block).buffer.numItems
        rw [fillOverlap_numItems]
        exact Nat.le_add_right _ _
  | stopSearch maxItems index ambiguity hpoint hindex =>
      exact hheaders.enqueue hstopped index ambiguity (by simp) (by simp)
  | stopServe hpoint =>
      exact hheaders.serve hsound.well hstopped (by rw [hpoint]; rfl) htime rfl
        fun _ => hpoint
  | flush hpoint =>
      refine ⟨fun h => absurd rfl h, by simp, by simp, ?_⟩
      intro t ht
      rw [flushFrames_published, List.mem_append] at ht
      obtain hold | hnew := ht
      · exact hheaders.published t hold
      · obtain ⟨s, hs, hflush⟩ := List.mem_filterMap.mp hnew
        obtain ⟨_, hcopied, hcases⟩ := flushTask_cases hflush
        have hidentified := (hheaders.queued hstopped s hs).identified
          (hheaders.flushing hpoint s hs hcopied)
        obtain ⟨_, rfl⟩ | ⟨_, rfl⟩ := hcases
        · refine hidentified.of_header rfl rfl ?_
          intro key hkey
          apply Dict.add_of_ne
          revert key
          decide
        · exact hidentified.of_header rfl rfl fun _ _ => rfl

end Machine

/-- In every run in which the queue is processed in time for the headers, every published
message has its header, which carries the offset and the ambiguity of its ASM and a score. -/
theorem published_identified {additional : List AsmPosition} {b : Block env}
    (hb : construct cfg additional = some b) {m : Machine env}
    (hreachable : Transition.Reachable (Machine.step cfg) (fun m _ => m.HeadersInTime cfg)
      (.start b) m)
    {t : Task env} (ht : .frame t ∈ m.block.out) : t.Identified := by
  have hheaders : m.Headers cfg :=
    Machine.invariant_of_reachable hb hreachable (Machine.headers_start hb)
      fun _ _ _ _ hsound hheaders htime hmoves => hheaders.step hsound htime hmoves
  exact hheaders.published t (Block.mem_published.mpr ht)

instance (cfg : Config) (m : Machine realPlatform) : Decidable (m.HeadersInTime cfg) := by
  unfold Machine.HeadersInTime Task.HeaderInTime
  infer_instance

theorem published_identified_short : ∃ (m : Machine realPlatform) (t : Task realPlatform),
    .frame t ∈ m.block.out ∧ t.header "asm_offset" = some (.uint64 0) := by
  have hconstruct : construct shortConfig [] =
      some (Block.initial shortConfig : Block realPlatform) := rfl
  obtain ⟨m, t, hrun, ht, hoffset⟩ : ∃ (m : Machine realPlatform) (t : Task realPlatform),
      Transition.run (Transition.guarded (Machine.step shortConfig)
        fun m _ => decide (m.HeadersInTime shortConfig)) (.start (.initial shortConfig))
          shortRun = some m ∧ .frame t ∈ m.block.out ∧ t.asmPos.offset = 0 :=
    ⟨_, _, rfl, List.mem_cons_self, rfl⟩
  have hidentified := published_identified hconstruct
    (Transition.Reachable.of_guarded_run .refl (fun _ _ => of_decide_eq_true) hrun) ht
  exact ⟨m, t, ht, by simp [hidentified.asmOffset fun _ _ => rfl, hoffset]⟩

/-- The stream ends with the first symbol of an ASM. -/
def halfAsmRun : List (Label realPlatform.Sample) :=
  [.work [1, 1, 1], .proceed, .proceed, .proceed, .stop, .found 2 0, .proceed, .proceed]

/-- The flushed frame of an accepted configuration has no header. -/
theorem half_asm_unidentified :
    (∃ (asmHex : String) (c : SyncConfig Int),
      make signConstellation asmHex 2 1 2 0 = .ok c ∧ c.config 0 0 = headConfig) ∧
    ∃ (m : Machine realPlatform) (t : Task realPlatform),
      Transition.run (Machine.step headConfig) (.start (.initial headConfig)) halfAsmRun =
        some m ∧ .frame t ∈ m.block.out ∧ t.header "asm_offset" = none ∧
        t.headerComputed = false ∧ ¬ t.Identified := by
  refine ⟨exists_make headConfig, _, _, rfl, List.mem_cons_self, rfl, rfl, ?_⟩
  intro hidentified
  have hcomputed := hidentified.headerComputed
  cases hcomputed

end GrCcsds.FrameSync
