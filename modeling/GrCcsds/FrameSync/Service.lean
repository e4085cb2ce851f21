import GrCcsds.FrameSync.Content
import GrCcsds.FrameSync.Uniqueness

/-! # Which detected frames are published

A queued frame is served as long as the window has not slid past it: past the
next symbol to copy, or past its ASM while the header is missing. Its header is
computed once the symbol behind the ASM is in the buffer. At the last index of
a block that symbol arrives with the next block only, when a buffer without
history has lost the ASM.
-/

namespace GrCcsds.FrameSync

open Utils Foundation

variable {env : Platform} {cfg : Config}

/-- Whether a frame at an offset can be served: it is not at the last index of a block,
or the buffer keeps a history, or there is nothing to copy. -/
def Config.Serves (cfg : Config) (offset : Nat) : Prop :=
  offset % cfg.blockLen + 1 < cfg.blockLen ∨ 0 < cfg.framesBefore ∨ 0 < cfg.head ∨
    cfg.outputLen = 0

instance (offset : Nat) : Decidable (cfg.Serves offset) := by
  unfold Config.Serves
  infer_instance

theorem Config.historyLen_pos (hhistory : 0 < cfg.framesBefore ∨ 0 < cfg.head) :
    0 < cfg.historyLen := by
  have hhead := cfg.numHead_eq
  have hproduct : 0 < cfg.framesBefore → 0 < cfg.framesBefore * cfg.blockLen :=
    fun h => Nat.mul_pos h cfg.blockLen_pos
  unfold Config.historyLen
  omega

theorem Config.historyLen_eq_zero (hframes : ¬ 0 < cfg.framesBefore) (hhead : ¬ 0 < cfg.head) :
    cfg.historyLen = 0 := by
  have hnumHead := cfg.numHead_eq
  have hnone : cfg.framesBefore = 0 := Nat.eq_zero_of_not_pos hframes
  unfold Config.historyLen
  rw [hnone, Nat.zero_mul]
  omega

namespace Task

/-- The window has not lost what a task still needs. -/
def Servable (availFrom : Nat) (t : Task env) : Prop :=
  t.dataComplete ∨
    availFrom ≤ t.copyFrom ∧ (t.headerComputed ∨ availFrom ≤ t.asmPos.offset)

/-- A task has taken what the first symbols of the stream provide. -/
def Served (cfg : Config) (numReceived : Nat) (t : Task env) : Prop :=
  t.dataComplete ∨
    numReceived ≤ t.copyFrom ∧ (t.headerComputed ∨ numReceived ≤ t.asmPos.offset + cfg.asmLen)

variable {buffer : Buffer env} {t : Task env}

/-- A servable task outside of the window waits for later symbols. -/
theorem behind_of_not_inRange (hrange : ¬ t.inRange cfg buffer)
    (hfrom : buffer.offsetStart cfg ≤ t.copyFrom)
    (hheader : t.headerComputed ∨ buffer.offsetStart cfg ≤ t.asmPos.offset) :
    buffer.offsetLastSymbol cfg < t.copyFrom ∧
      (t.headerComputed ∨ buffer.offsetLastSymbol cfg < t.asmPos.offset) := by
  unfold inRange at hrange
  cases hcomputed : t.headerComputed with
  | true =>
      simp only [hcomputed, if_true, ge_iff_le, Bool.and_eq_true, decide_eq_true_eq, not_and,
        not_le] at hrange
      exact ⟨hrange hfrom, Or.inl rfl⟩
  | false =>
      rw [hcomputed] at hheader
      have hasm := hheader.resolve_left Bool.false_ne_true
      simp only [hcomputed, Bool.false_eq_true, if_false, pickSmaller_eq_min, ge_iff_le,
        Bool.and_eq_true, decide_eq_true_eq, not_and, not_le] at hrange
      have hlast := hrange (Nat.le_min.mpr ⟨hasm, hfrom⟩)
      exact ⟨by omega, Or.inr (by omega)⟩

theorem le_asmOffset_of_inRange (hrange : t.inRange cfg buffer)
    (hcomputed : t.headerComputed = false) :
    buffer.offsetStart cfg ≤ t.asmPos.offset := by
  unfold inRange at hrange
  simp only [hcomputed, Bool.false_eq_true, if_false, pickSmaller_eq_min, ge_iff_le,
    Bool.and_eq_true, decide_eq_true_eq] at hrange
  omega

theorem dataComplete_serveTask (ht : t.dataComplete) :
    serveTask cfg buffer t = t := serveTask_skips cfg buffer (Or.inl ht)

theorem dataComplete_iff : t.dataComplete ↔ t.numSymbolsCopied = t.numSymbolsTotal := beq_iff_eq

/-- Serving a servable task takes everything that the window provides. -/
theorem Servable.served (ht : t.Servable (buffer.offsetStart cfg)) (hwell : t.WellFormed cfg) :
    (serveTask cfg buffer t).Served cfg (buffer.offsetLastSymbol cfg + 1) := by
  have hle := hwell.copied_le
  by_cases hcomplete : t.dataComplete
  · rw [dataComplete_serveTask hcomplete]
    exact Or.inl hcomplete
  obtain ⟨hfrom, hheader⟩ := ht.resolve_left hcomplete
  by_cases hrange : t.inRange cfg buffer
  · obtain ⟨hcopied, hcopyFrom, hcomputed⟩ := serveTask_advances cfg buffer hcomplete hrange
    have hsame := serveTask_same cfg buffer t
    have htoCopy : t.toCopy cfg buffer = min (t.numSymbolsTotal - t.numSymbolsCopied)
        (buffer.offsetLastSymbol cfg + 1 - t.copyFrom) := by
      rw [toCopy, numRemaining, minusCapZero_eq_sub]
    unfold Served
    rw [dataComplete_iff, hcopied, hcopyFrom, hcomputed, startFrame_headerComputed,
      hsame.numSymbolsTotal, hsame.asmPos]
    by_cases hall : t.numSymbolsTotal - t.numSymbolsCopied ≤
        buffer.offsetLastSymbol cfg + 1 - t.copyFrom
    · left
      omega
    · refine Or.inr ⟨by omega, ?_⟩
      rcases hheader with hcomputed | hasm
      · exact Or.inl (Or.inl hcomputed)
      · by_cases havailable : t.asmPos.offset + cfg.asmLen ≤ buffer.offsetLastSymbol cfg
        · exact Or.inl (Or.inr ⟨hasm, havailable⟩)
        · exact Or.inr (by omega)
  · rw [serveTask_skips cfg buffer (Or.inr hrange)]
    obtain ⟨hcopy, hasm⟩ := behind_of_not_inRange hrange hfrom hheader
    exact Or.inr ⟨hcopy, hasm.imp_right fun h => by omega⟩

/-- Serving a task does not make it wait for symbols that the window has lost. -/
theorem Servable.serveTask (ht : t.Servable (buffer.offsetStart cfg)) :
    (FrameSync.serveTask cfg buffer t).Servable (buffer.offsetStart cfg) := by
  by_cases hskip : t.dataComplete ∨ ¬ t.inRange cfg buffer
  · rw [serveTask_skips cfg buffer hskip]
    exact ht
  · obtain ⟨hcomplete, hrange⟩ := not_or.mp hskip
    obtain ⟨hfrom, hheader⟩ := ht.resolve_left hcomplete
    obtain ⟨_, hcopyFrom, hcomputed⟩ :=
      serveTask_advances cfg buffer hcomplete (not_not.mp hrange)
    right
    rw [hcopyFrom, hcomputed, startFrame_headerComputed, (serveTask_same cfg buffer t).asmPos]
    exact ⟨Nat.le_trans hfrom (Nat.le_add_right _ _), hheader.imp_left Or.inl⟩

/-- A served task can still be served after the buffer has advanced. -/
theorem Served.servable {numReceived : Nat} (ht : t.Served cfg numReceived)
    (hwell : t.WellFormed cfg) (hserves : cfg.Serves t.asmPos.offset)
    (haligned : cfg.blockLen ∣ buffer.offsetCounter)
    (hreceived : numReceived = buffer.offsetCounter + cfg.blockLen + cfg.overlapLen) :
    t.Servable ((buffer.advance cfg).offsetStart cfg) := by
  have hpos := cfg.asmLen_pos
  have hoverlap : cfg.overlapLen = cfg.asmLen - 1 := rfl
  have hblock := cfg.blockLen_pos
  rcases ht with hcomplete | ⟨hfrom, hheader⟩
  · exact Or.inl hcomplete
  simp only [Servable, Buffer.offsetStart_eq, Buffer.advance_offsetCounter, minusCapZero_eq_sub]
  rcases hserves with hindex | hhistory | hhistory | hnothing
  · refine Or.inr ⟨by omega, hheader.imp_right ?_⟩
    intro hasm
    obtain ⟨q, hq⟩ := haligned
    -- an ASM that starts at the last index of the block would be lost
    have hlast : t.asmPos.offset ≠ cfg.blockLen * q + (cfg.blockLen - 1) := by
      intro hlast
      rw [hlast, Nat.mul_add_mod, Nat.mod_eq_of_lt (by omega)] at hindex
      omega
    omega
  · have hlen := Config.historyLen_pos (Or.inl hhistory)
    exact Or.inr ⟨by omega, hheader.imp_right fun hasm => by omega⟩
  · have hlen := Config.historyLen_pos (Or.inr hhistory)
    exact Or.inr ⟨by omega, hheader.imp_right fun hasm => by omega⟩
  · have hle := hwell.copied_le
    have htotal := hwell.numSymbolsTotal
    exact Or.inl (dataComplete_iff.mpr (by omega))

/-- A task at the last index of a block never starts if the buffer has no history: the
symbol behind its ASM only arrives when the window has slid past the ASM. -/
theorem serveTask_of_not_serves (hwell : t.WellFormed cfg)
    (hserves : ¬ cfg.Serves t.asmPos.offset) (haligned : cfg.blockLen ∣ buffer.offsetCounter)
    (hitems : buffer.numItems ≤ cfg.bufferLen) (hcopied : t.numSymbolsCopied = 0)
    (hcomputed : t.headerComputed = false) :
    (FrameSync.serveTask cfg buffer t).numSymbolsCopied = 0 ∧
      (FrameSync.serveTask cfg buffer t).headerComputed = false := by
  by_cases hskip : t.dataComplete ∨ ¬ t.inRange cfg buffer
  · rw [serveTask_skips cfg buffer hskip]
    exact ⟨hcopied, hcomputed⟩
  obtain ⟨hcomplete, hrange⟩ := not_or.mp hskip
  obtain ⟨hcopied', _, hcomputed'⟩ := serveTask_advances cfg buffer hcomplete (not_not.mp hrange)
  obtain ⟨hindex, hframes, hhead, _⟩ : ¬ t.asmPos.offset % cfg.blockLen + 1 < cfg.blockLen ∧
      ¬ 0 < cfg.framesBefore ∧ ¬ 0 < cfg.head ∧ ¬ cfg.outputLen = 0 := by
    unfold Config.Serves at hserves
    exact ⟨by omega, by omega, by omega, by omega⟩
  have hhistory := cfg.historyLen_eq_zero hframes hhead
  have hasm := le_asmOffset_of_inRange (not_not.mp hrange) hcomputed
  rw [Buffer.offsetStart_eq, minusCapZero_eq_sub, hhistory] at hasm
  -- the window ends before the symbol behind the ASM
  have hlast : buffer.offsetLastSymbol cfg < t.asmPos.offset + cfg.asmLen := by
    obtain ⟨q, hq⟩ := haligned
    have hdivision := Nat.div_add_mod t.asmPos.offset cfg.blockLen
    have hblock := Nat.mod_lt t.asmPos.offset cfg.blockLen_pos
    have hquotient : q ≤ t.asmPos.offset / cfg.blockLen := by
      rw [Nat.le_div_iff_mul_le cfg.blockLen_pos, Nat.mul_comm]
      omega
    have hproduct := Nat.mul_le_mul_left cfg.blockLen hquotient
    have hlen := Machine.bufferLen_eq cfg
    have hoverlap : cfg.overlapLen = cfg.asmLen - 1 := rfl
    have hpos := cfg.asmLen_pos
    rw [Buffer.offsetLastSymbol_eq, minusCapZero_eq_sub]
    omega
  have hcopyFrom := hwell.copyFrom
  have hstart := frameStart_eq hwell.numHead_le
  constructor
  · rw [hcopied', hcopied, toCopy]
    omega
  · rw [hcomputed', Bool.eq_false_iff, ne_eq, startFrame_headerComputed, hcomputed]
    intro h
    rcases h with h | ⟨_, h⟩
    · cases h
    · omega

end Task

theorem newTask_servable {b : Block env} {info : AsmPosition} (primary : Bool)
    (hnumHead : cfg.numHead ≤ info.offset) (hoffset : b.buffer.offset ≤ info.offset) :
    (newTask cfg info primary : Task env).Servable (b.buffer.offsetStart cfg) := by
  have hstart := frameStart_eq hnumHead
  have hhead := cfg.numHead_eq
  have hcopyFrom : (newTask cfg info primary : Task env).copyFrom =
      frameStart cfg info.offset := rfl
  have hhistory : cfg.numHead ≤ cfg.historyLen := Nat.le_add_left _ _
  have havail : b.buffer.offsetStart cfg = b.buffer.offset - cfg.historyLen :=
    minusCapZero_eq_sub _ _
  refine Or.inr ⟨?_, Or.inr ?_⟩
  · rw [hcopyFrom, havail]
    omega
  · change _ ≤ info.offset
    rw [havail]
    omega

/-- A detected frame is in the queue and can be served. -/
def Waiting (cfg : Config) (buffer : Buffer env) (frame : AsmPosition)
    (queue : List (Task env)) : Prop :=
  ∃ t ∈ queue, t.asmPos.key = frame.key ∧ t.primary = true ∧
    t.Servable (buffer.offsetStart cfg)

theorem Waiting.queueFrameOutput {b : Block env} {frame info : AsmPosition}
    {queue next : List (Task env)} {primary : Bool} (hwaiting : Waiting cfg b.buffer frame queue)
    (hoffset : primary = true → b.buffer.offset ≤ info.offset)
    (hnext : queueFrameOutput cfg queue info primary = some next) :
    Waiting cfg b.buffer frame next := by
  obtain ⟨t, ht, hkey, hprimary, hservable⟩ := hwaiting
  rcases queueFrameOutput_keeps hnext ht with hkept | ⟨hnew, hsame, hmem⟩
  · exact ⟨t, hkept, hkey, hprimary, hservable⟩
  · exact ⟨_, hmem, hsame.trans hkey, hnew,
      newTask_servable primary (queueFrameOutput_cases hnext).1 (hoffset hnew)⟩

theorem Waiting.processed {b : Block env} {frame : AsmPosition}
    (hwaiting : Waiting cfg b.buffer frame b.frameQueue) (index ambiguity : Nat) :
    Waiting cfg b.buffer frame (processed cfg b index ambiguity).frameQueue := by
  refine processed_induction (Waiting cfg b.buffer frame) index ambiguity ?_ hwaiting
  intro before after info primary hbefore _ hoffset hafter
  exact hbefore.queueFrameOutput hoffset hafter

/-- The frame that the search has found waits, unless there is an exception. -/
theorem waiting_of_processBuffer {b next : Block env} {index ambiguity : Nat}
    (hnext : processBuffer cfg b index ambiguity = .ok next) :
    Waiting cfg b.buffer { offset := b.buffer.offset + index
                           ambiguity := ambiguity
                           sequence := next.sequenceNumber } next.frameQueue := by
  obtain ⟨queue, hsequence, hfirst, hrest⟩ := processBuffer_ok hnext
  rw [hsequence]
  refine (queueSecondary_induction (Waiting cfg b.buffer _) _ ?_ ?_).1 _ hrest
  · intro before after info _ hbefore hafter
    refine hbefore.queueFrameOutput ?_ hafter
    intro hprimary
    cases hprimary
  · exact ⟨_, newTask_mem_queueFrameOutput hfirst, rfl, rfl,
      newTask_servable true (queueFrameOutput_cases hfirst).1 (Nat.le_add_right _ _)⟩

namespace Machine

/-- The points right after the queue has been processed. -/
def justServed (m : Machine env) : Prop := m.point = .idle ∨ ∃ rest, m.point = .advance rest

/-- A primary frame of a position has been published. -/
def Sent (m : Machine env) (frame : AsmPosition) : Prop :=
  ∃ t ∈ m.block.published, t.asmPos.key = frame.key ∧ t.primary = true

/-- A detected frame has been published or can be served. -/
structure Tracked (cfg : Config) (m : Machine env) (frame : AsmPosition) : Prop where
  waiting : m.Sent frame ∨ Waiting cfg m.block.buffer frame m.block.frameQueue
  served : m.justServed → m.Sent frame ∨
    ∃ t ∈ m.block.frameQueue, t.asmPos.key = frame.key ∧ t.primary = true ∧
      t.Served cfg m.received.length ∧ ¬ t.isReady cfg m.block.buffer

/-- A frame stays tracked while its task is left alone and the window does not slide. -/
theorem Tracked.keep {m next : Machine env} {frame : AsmPosition}
    (htracked : Tracked cfg m frame) (hqueue : next.block.frameQueue = m.block.frameQueue)
    (hout : next.block.out = m.block.out)
    (hoffset : next.block.buffer.offsetCounter = m.block.buffer.offsetCounter)
    (hpoint : ¬ next.justServed) : Tracked cfg next frame := by
  refine ⟨?_, fun h => absurd h hpoint⟩
  unfold Sent Waiting
  simp only [Buffer.offsetStart_eq]
  rw [hqueue, Block.published, hout, hoffset]
  exact htracked.waiting

theorem Tracked.enqueue {m next : Machine env} {frame : AsmPosition}
    (htracked : Tracked cfg m frame) (index ambiguity : Nat)
    (hblock : next.block = processed cfg m.block index ambiguity)
    (hpoint : ¬ next.justServed) : Tracked cfg next frame := by
  refine ⟨?_, fun h => absurd h hpoint⟩
  unfold Sent
  rw [hblock, Block.published, processed_out, processed_buffer]
  exact htracked.waiting.imp_right fun hwaiting => hwaiting.processed index ambiguity

theorem Tracked.serve {m next : Machine env} {frame : AsmPosition}
    (htracked : Tracked cfg m frame) (hwell : TasksWell cfg m)
    (hlast : m.block.buffer.offsetLastSymbol cfg + 1 = m.received.length)
    (hstopped : m.point ≠ .stopped) (hreceived : next.received = m.received)
    (hblock : next.block = processFrameQueue cfg m.block) : Tracked cfg next frame := by
  have hunsent := hwell.unsent hstopped
  -- the served task is sent out now or stays in the queue
  have hserved : next.Sent frame ∨ ∃ t ∈ next.block.frameQueue,
      (t.asmPos.key = frame.key ∧ t.primary = true) ∧
        t.Servable (next.block.buffer.offsetStart cfg) ∧
        t.Served cfg next.received.length ∧ ¬ t.isReady cfg next.block.buffer := by
    unfold Sent
    rw [hblock, hreceived, processFrameQueue_buffer]
    rcases htracked.waiting with ⟨t, ht, hframe⟩ | ⟨t, ht, hkey, hprimary, hservable⟩
    · exact Or.inl ⟨t, (mem_published_processFrameQueue cfg).mpr (Or.inl ht), hframe⟩
    · have hsame := serveTask_same cfg m.block.buffer t
      have hserved := hservable.served (hwell.queued t ht)
      have hframe : (serveTask cfg m.block.buffer t).asmPos.key = frame.key ∧
          (serveTask cfg m.block.buffer t).primary = true :=
        ⟨(congrArg AsmPosition.key hsame.asmPos).trans hkey, hsame.primary.trans hprimary⟩
      rw [hlast] at hserved
      by_cases hready : (serveTask cfg m.block.buffer t).isReady cfg m.block.buffer
      · exact Or.inl ⟨_, (mem_published_processFrameQueue cfg).mpr
          (Or.inr ⟨t, ht, hready, rfl⟩), hframe⟩
      · exact Or.inr ⟨_, (mem_processFrameQueue cfg hunsent).mpr ⟨t, ht, rfl, hready⟩, hframe,
          hservable.serveTask, hserved, hready⟩
  constructor
  · refine hserved.imp_right ?_
    rintro ⟨t, ht, ⟨hkey, hprimary⟩, hservable, _⟩
    exact ⟨t, ht, hkey, hprimary, hservable⟩
  · intro _
    refine hserved.imp_right ?_
    rintro ⟨t, ht, ⟨hkey, hprimary⟩, _, hdone⟩
    exact ⟨t, ht, hkey, hprimary, hdone⟩

theorem Tracked.advance {m next : Machine env} {frame : AsmPosition} {rest : List env.Sample}
    (htracked : Tracked cfg m frame) (hsound : Sound cfg m) (hserves : cfg.Serves frame.offset)
    (hadvance : m.point = .advance rest) (hpoint : ¬ next.justServed)
    (hblock : next.block = { m.block with buffer := m.block.buffer.advance cfg }) :
    Tracked cfg next frame := by
  have hfull := hsound.counts.full (by rw [hadvance]; rfl)
  have hequal := hsound.counts.received_eq (by rw [hadvance]; rfl)
  have hlen := bufferLen_eq cfg
  refine ⟨?_, fun h => absurd h hpoint⟩
  unfold Sent Waiting
  rw [hblock]
  refine (htracked.served (Or.inr ⟨rest, hadvance⟩)).imp_right ?_
  rintro ⟨t, ht, hkey, hprimary, hserved, _⟩
  have hoffset : t.asmPos.offset = frame.offset := (Prod.mk.inj hkey).1
  refine ⟨t, ht, hkey, hprimary, ?_⟩
  apply hserved.servable (hsound.well.queued t ht) (hoffset ▸ hserves) hsound.counts.aligned
  omega

theorem search_primaries {m : Machine env} {index ambiguity : Nat}
    {success failure : Point env.Sample} {frame : AsmPosition}
    (hframe : frame ∈ (m.search cfg index ambiguity success failure).primaries) :
    frame ∈ m.primaries ∨ Waiting cfg m.block.buffer frame
      (m.search cfg index ambiguity success failure).block.frameQueue := by
  unfold search at hframe ⊢
  cases hnext : processBuffer cfg m.block index ambiguity with
  | error b =>
      rw [hnext] at hframe
      exact Or.inl hframe
  | ok b =>
      rw [hnext] at hframe
      rcases List.mem_append.mp hframe with hold | hnew
      · exact Or.inl hold
      · rw [List.mem_singleton.mp hnew]
        exact Or.inr (waiting_of_processBuffer hnext)

/-- The detected frames are tracked, except for those that cannot be served. -/
def Follows (cfg : Config) (m : Machine env) : Prop :=
  ∀ frame ∈ m.primaries, cfg.Serves frame.offset → Tracked cfg m frame

theorem Fed.received_length {m : Machine env} (hfed : Fed cfg m) (hcounts : Counts cfg m)
    (hpoint : (∃ rest, m.point = .serve rest) ∨ m.point = .finish) :
    m.block.buffer.offsetLastSymbol cfg + 1 = m.received.length := by
  rcases hpoint with ⟨rest, hserve⟩ | hfinish
  · have hfull := hcounts.full (by rw [hserve]; rfl)
    have hlen := bufferLen_eq cfg
    have hblock := cfg.blockLen_pos
    exact hcounts.received_length (by rw [hserve]; rfl) (by omega)
  · exact hcounts.received_length (by rw [hfinish]; rfl)
      (hfed.window (hfed.leaving (Or.inr hfinish)))

theorem follows_start (cfg : Config) (b : Block env) : Follows cfg (start b) := nofun

theorem Follows.step {m next : Machine env} {label : Label env.Sample} (hfollows : Follows cfg m)
    (hsound : Sound cfg m) (hfed : Fed cfg m) (hmoves : Moves cfg m label next)
    (hworking : next.point.isWorking = true) : Follows cfg next := by
  intro frame hframe hserves
  cases hmoves with
  | call | leave => exact (hfollows frame hframe hserves).keep rfl rfl rfl (by simp [justServed])
  | read rest hrest hpoint =>
      refine (hfollows frame hframe hserves).keep rfl rfl rfl ?_
      unfold justServed
      rw [readNext_point]
      split <;> simp
  | search rest index ambiguity hpoint hindex =>
      have hnot : ¬ (m.search cfg index ambiguity (.serve rest) .workRaised).justServed := by
        rcases search_point cfg m index ambiguity (.serve rest) .workRaised with h | h
        · simp [justServed, h]
        · simp [justServed, h]
      rcases search_primaries hframe with hold | hnew
      · exact (hfollows frame hold hserves).enqueue index ambiguity (search_block ..) hnot
      · refine ⟨Or.inr ?_, fun h => absurd h hnot⟩
        rw [search_block, processed_buffer, ← search_block]
        exact hnew
  | serve rest hpoint =>
      exact (hfollows frame hframe hserves).serve hsound.well
        (hfed.received_length hsound.counts (Or.inl ⟨rest, hpoint⟩)) (by simp [hpoint]) rfl rfl
  | advance rest hpoint =>
      exact (hfollows frame hframe hserves).advance hsound hserves hpoint (by simp [justServed])
        rfl
  | finish hpoint =>
      exact (hfollows frame hframe hserves).serve hsound.well
        (hfed.received_length hsound.counts (Or.inr hpoint)) (by simp [hpoint]) rfl rfl
  | stop | stopSearch => simp at hworking
  | stopServe | flush => cases hworking

/-- A task at a position that cannot be served never takes a symbol. -/
structure Stuck (offset : Nat) (m : Machine env) : Prop where
  queued : ∀ t ∈ m.block.frameQueue, t.asmPos.offset = offset →
    t.numSymbolsCopied = 0 ∧ t.headerComputed = false
  published : ∀ t ∈ m.block.published, t.asmPos.offset ≠ offset

theorem stuck_start {additional : List AsmPosition} {b : Block env}
    (hb : construct cfg additional = some b) (offset : Nat) : Stuck offset (start b) := by
  obtain ⟨queue, hqueue, rfl⟩ := construct_eq hb
  refine ⟨?_, nofun⟩
  exact forall_queueSecondary (fun _ _ _ _ => ⟨rfl, rfl⟩) (by simp) hqueue

theorem Stuck.serve {m next : Machine env} {offset : Nat} (hstuck : Stuck offset m)
    (hsound : Sound cfg m) (hserves : ¬ cfg.Serves offset) (hstopped : m.point ≠ .stopped)
    (hblock : next.block = processFrameQueue cfg m.block) : Stuck offset next := by
  have hunsent := hsound.well.unsent hstopped
  have hserved : ∀ s ∈ m.block.frameQueue,
      (serveTask cfg m.block.buffer s).asmPos.offset = offset →
      (serveTask cfg m.block.buffer s).numSymbolsCopied = 0 ∧
        (serveTask cfg m.block.buffer s).headerComputed = false := by
    intro s hs hoffset
    rw [(serveTask_same cfg m.block.buffer s).asmPos] at hoffset
    obtain ⟨hcopied, hcomputed⟩ := hstuck.queued s hs hoffset
    exact Task.serveTask_of_not_serves (hsound.well.queued s hs) (hoffset ▸ hserves)
      hsound.counts.aligned hsound.counts.le_bufferLen hcopied hcomputed
  constructor
  · intro t ht hoffset
    rw [hblock, mem_processFrameQueue cfg hunsent] at ht
    obtain ⟨s, hs, rfl, _⟩ := ht
    exact hserved s hs hoffset
  · intro t ht hoffset
    rw [hblock, mem_published_processFrameQueue] at ht
    obtain hold | ⟨s, hs, hready, rfl⟩ := ht
    · exact hstuck.published t hold hoffset
    · have hnone := (hserved s hs hoffset).1
      have hwell := (hsound.well.queued s hs).serveTask m.block.buffer
      simp only [Task.isReady, Bool.and_eq_true] at hready
      have hcomplete := Task.dataComplete_iff.mp hready.1.1
      apply hserves
      unfold Config.Serves
      rw [hnone, hwell.numSymbolsTotal] at hcomplete
      exact Or.inr (Or.inr (Or.inr hcomplete.symm))

theorem Stuck.step {m next : Machine env} {label : Label env.Sample} {offset : Nat}
    (hstuck : Stuck offset m) (hsound : Sound cfg m) (hserves : ¬ cfg.Serves offset)
    (hmoves : Moves cfg m label next) : Stuck offset next := by
  cases hmoves.tasks with
  | keep _ hqueue hout _ =>
      refine ⟨hqueue ▸ hstuck.queued, ?_⟩
      rw [Block.published, hout]
      exact hstuck.published
  | enqueue _ index ambiguity hblock =>
      constructor
      · rw [hblock]
        exact forall_processed index ambiguity (fun _ _ _ _ _ => ⟨rfl, rfl⟩) hstuck.queued
      · rw [hblock, Block.published, processed_out]
        exact hstuck.published
  | serve _ _ _ hblock => exact hstuck.serve hsound hserves hmoves.point_ne_stopped hblock
  | flush _ _ _ hblock =>
      constructor
      · intro t ht hoffset
        rw [hblock] at ht
        obtain ⟨s, hs, rfl⟩ := List.mem_map.mp ht
        cases hflush : flushTask s with
        | none =>
            rw [hflush] at hoffset
            exact hstuck.queued s hs hoffset
        | some t =>
            rw [hflush, Option.getD_some, flushTask_asmPos hflush] at hoffset
            have hcopied := (flushTask_cases hflush).2.1
            have hnone := (hstuck.queued s hs hoffset).1
            omega
      · intro t ht hoffset
        rw [hblock, flushFrames_published, List.mem_append] at ht
        obtain hold | hnew := ht
        · exact hstuck.published t hold hoffset
        · obtain ⟨s, hs, hflush⟩ := List.mem_filterMap.mp hnew
          rw [flushTask_asmPos hflush] at hoffset
          have hcopied := (flushTask_cases hflush).2.1
          have hnone := (hstuck.queued s hs hoffset).1
          omega

/-- A frame has been published and has left the queue. -/
def Delivers (m : Machine env) (frame : AsmPosition) : Prop :=
  m.Sent frame ∧ ∀ t ∈ m.block.frameQueue, t.asmPos.key ≠ frame.key

/-- Whatever is tracked has been published once its symbols have arrived and the buffer
has advanced far enough. -/
theorem Tracked.sent {m : Machine env} {frame : AsmPosition} (htracked : Tracked cfg m frame)
    (hwell : TasksWell cfg m) (hserved : m.justServed)
    (hreceived : ∀ i < cfg.outputLen, frameStart cfg frame.offset + i < m.received.length)
    (hadvanced : frame.offset / cfg.blockLen * cfg.blockLen +
      (cfg.framesBefore + 2) * cfg.blockLen ≤ m.block.buffer.offset) : m.Sent frame := by
  apply (htracked.served hserved).resolve_right
  rintro ⟨t, ht, hkey, _, hdone, hwaits⟩
  have hunsent := hwell.unsent (by rcases hserved with h | ⟨rest, h⟩ <;> simp [h]) t ht
  have htask := hwell.queued t ht
  have hoffset : t.asmPos.offset = frame.offset := (Prod.mk.inj hkey).1
  have hcomplete : t.dataComplete := by
    apply hdone.elim id
    rintro ⟨hcopyFrom, _⟩
    by_contra hincomplete
    have hless : t.numSymbolsCopied < cfg.outputLen := by
      rw [← htask.numSymbolsTotal]
      exact Nat.lt_of_le_of_ne htask.copied_le fun h => hincomplete (Task.dataComplete_iff.mpr h)
    have hnext := hreceived _ hless
    rw [htask.copyFrom, hoffset] at hcopyFrom
    omega
  -- after these blocks no later search can generate the position any more
  have hthreshold : t.asmPos.offset < sendThreshold cfg m.block.buffer := by
    have hdivision := Nat.div_add_mod' frame.offset cfg.blockLen
    have hindex := Nat.mod_lt frame.offset cfg.blockLen_pos
    rw [Nat.add_mul] at hadvanced
    rw [sendThreshold, minusCapZero_eq_sub, hoffset]
    omega
  apply hwaits
  simp [Task.isReady, hcomplete, hunsent, hthreshold]

end Machine

/-- A detected frame has been published, and has left the queue, as soon as its last symbol
has arrived and the buffer has advanced `framesBefore + 2` blocks, unless its ASM starts at
the last index of a block and the buffer has no history. Such a frame is never published. -/
theorem primary_frame_published_iff (hasm : 2 ≤ cfg.asmLen) {additional : List AsmPosition}
    {b : Block env} (hb : construct cfg additional = some b) {m : Machine env}
    (hreachable : Transition.Reachable (Machine.step cfg) (fun _ label => label ≠ .work [])
      (.start b) m) {frame : AsmPosition} (hframe : frame ∈ m.primaries)
    (hserved : m.justServed)
    (hreceived : ∀ i < cfg.outputLen, frameStart cfg frame.offset + i < m.received.length)
    (hadvanced : frame.offset / cfg.blockLen * cfg.blockLen +
      (cfg.framesBefore + 2) * cfg.blockLen ≤ m.block.buffer.offset) :
    m.Delivers frame ↔ cfg.Serves frame.offset := by
  have hsound := Machine.sound_of_reachable hb hreachable
  have hunique := Machine.unique_of_reachable hb hreachable
  have hfollows : m.point.isWorking = true → m.Follows cfg := by
    apply Machine.invariant_of_reachable hb hreachable fun _ => Machine.follows_start cfg b
    intro s label next hreached hsound hfollows _ hmoves hnext
    have hworking := hmoves.isWorking hnext
    exact (hfollows hworking).step hsound (Machine.fed_of_reachable hasm hb hreached hworking)
      hmoves hnext
  have hstuck : ¬ cfg.Serves frame.offset → m.Stuck frame.offset := by
    intro hserves
    apply Machine.invariant_of_reachable hb hreachable (Machine.stuck_start hb frame.offset)
    intro s label next _ hsound hstuck _ hmoves
    exact hstuck.step hsound hserves hmoves
  have hpoint : m.point.isWorking = true ∧ m.point ≠ .stopped := by
    rcases hserved with h | ⟨rest, h⟩
    · simp [h, Point.isWorking]
    · simp [h, Point.isWorking]
  constructor
  · rintro ⟨⟨t, ht, hkey, _⟩, _⟩
    by_contra hserves
    exact (hstuck hserves).published t ht (Prod.mk.inj hkey).1
  · intro hserves
    have htracked := hfollows hpoint.1 frame hframe hserves
    have hsent := htracked.sent hsound.well hserved hreceived hadvanced
    refine ⟨hsent, ?_⟩
    intro t ht hkey
    obtain ⟨s, hs, hsame, _⟩ := hsent
    have hnodup := (hunique.once hpoint.2).nodup
    apply (List.nodup_append.mp hnodup).2.2 _ (mem_keys.mpr ⟨t, ht, hkey⟩) _
      (mem_keys.mpr ⟨s, hs, hsame⟩) rfl

/-- Two blocks of three symbols and one more, with an ASM found at an index of the first. -/
def twoBlocksRun (index : Nat) : List (Label realPlatform.Sample) :=
  [.work [1, 1, 3, 1, 1, 5, 2], .proceed, .found index 0, .proceed, .proceed, .proceed,
    .found 0 0, .proceed, .proceed, .proceed, .proceed]

theorem primary_frame_published_index_one : ∃ (m : Machine realPlatform) (frame : AsmPosition),
    frame ∈ m.primaries ∧ frame.offset = 1 ∧ m.Delivers frame := by
  have hconstruct : construct shortConfig [] =
      some (Block.initial shortConfig : Block realPlatform) := rfl
  obtain ⟨m, hrun, hprimaries, hpoint, hreceived, hoffset⟩ : ∃ m : Machine realPlatform,
      Transition.run (Machine.step shortConfig) (.start (.initial shortConfig))
        (twoBlocksRun 1) = some m ∧ m.primaries = [⟨1, 0, 1⟩, ⟨3, 0, 2⟩] ∧ m.point = .idle ∧
        m.received.length = 7 ∧ m.block.buffer.offset = 6 := ⟨_, rfl, rfl, rfl, rfl, rfl⟩
  have hreachable : Transition.Reachable (Machine.step shortConfig)
      (fun _ label => label ≠ .work []) (.start (.initial shortConfig)) m := by
    apply Transition.Reachable.of_run .refl _ hrun
    intro _ label hlabel
    simp only [twoBlocksRun, List.mem_cons, List.not_mem_nil, or_false] at hlabel
    rintro rfl
    simp at hlabel
  have hframe : (⟨1, 0, 1⟩ : AsmPosition) ∈ m.primaries := by simp [hprimaries]
  refine ⟨m, _, hframe, rfl, ?_⟩
  refine (primary_frame_published_iff (Nat.le_refl 2) hconstruct hreachable hframe
    (Or.inl hpoint) ?_ ?_).mpr (by decide)
  · rw [hreceived]
    decide
  · rw [hoffset]
    decide

/-- The frame at the last index of the first block is lost. -/
theorem last_index_frame_lost : ∃ (m : Machine realPlatform) (frame : AsmPosition),
    Transition.run (Machine.step shortConfig) (.start (.initial shortConfig))
        (twoBlocksRun 2) = some m ∧
      frame ∈ m.primaries ∧ m.point = .idle ∧ frame.offset = 2 ∧
      (∀ i < shortConfig.outputLen, frameStart shortConfig frame.offset + i < m.received.length) ∧
      frame.offset / shortConfig.blockLen * shortConfig.blockLen +
        (shortConfig.framesBefore + 2) * shortConfig.blockLen ≤ m.block.buffer.offset ∧
      ¬ m.Delivers frame := by
  obtain ⟨m, hrun, hprimaries, hpoint, hreceived, hoffset, hqueue⟩ : ∃ m : Machine realPlatform,
      Transition.run (Machine.step shortConfig) (.start (.initial shortConfig))
        (twoBlocksRun 2) = some m ∧ m.primaries = [⟨2, 0, 1⟩, ⟨3, 0, 2⟩] ∧ m.point = .idle ∧
        m.received.length = 7 ∧ m.block.buffer.offset = 6 ∧
        (2, 0) ∈ keys m.block.frameQueue :=
    ⟨_, rfl, rfl, rfl, rfl, rfl, List.mem_cons_self⟩
  refine ⟨m, ⟨2, 0, 1⟩, hrun, by simp [hprimaries], hpoint, rfl, ?_, ?_, ?_⟩
  · rw [hreceived]
    decide
  · rw [hoffset]
    decide
  · rintro ⟨_, hleft⟩
    obtain ⟨t, ht, hkey⟩ := mem_keys.mp hqueue
    exact hleft t ht hkey

end GrCcsds.FrameSync
