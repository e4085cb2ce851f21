import GrCcsds.FrameSync.Tasks

/-! # The content of the published frames

A task copies the soft decisions of the received symbols piece by piece while
the buffer slides over the stream. As long as processing the queue does not
read positions that have not been received, every copied symbol is the
corrected symbol of the stream at the position of its frame.
-/

namespace GrCcsds.FrameSync

open Utils Foundation

variable {env : Platform} {cfg : Config}

/-- The copied symbols of a task are soft decisions of received symbols. -/
def Task.Delivered (cfg : Config) (received : List env.Sample) (t : Task env) : Prop :=
  ∀ j < t.numSymbolsCopied, ∃ symbol, received[frameStart cfg t.asmPos.offset + j]? = some symbol ∧
    ∀ k : Fin env.bitsPerSymbol, t.msgBuffer (j * env.bitsPerSymbol + k) =
      env.softDecisionMaker (env.mul symbol t.ambCorrection) k

/-- Whether serving a task copies from a position of the buffer that has not been
received. -/
def Task.overreads (cfg : Config) (buffer : Buffer env) (numReceived : Nat) (t : Task env) :
    Prop :=
  (¬ t.dataComplete ∧ t.inRange cfg buffer ∧ t.copyFrom ≤ buffer.offsetLastSymbol cfg) ∧
    numReceived ≤ buffer.offsetLastSymbol cfg ∧ numReceived < t.copyFrom + t.numRemaining

theorem Task.le_copyFrom_of_inRange {buffer : Buffer env} {t : Task env}
    (ht : t.inRange cfg buffer) : buffer.offsetStart cfg ≤ t.copyFrom := by
  unfold Task.inRange at ht
  simp only [pickSmaller_eq_min, ge_iff_le, Bool.and_eq_true, decide_eq_true_eq] at ht
  split at ht <;> omega

theorem Task.delivered_of_none_copied {received : List env.Sample} {t : Task env}
    (ht : t.numSymbolsCopied = 0) : t.Delivered cfg received := by
  intro j hj
  omega

theorem Task.Delivered.mono {received later : List env.Sample} {t : Task env}
    (ht : t.Delivered cfg received) (hgrows : received <+: later) :
    t.Delivered cfg later := by
  obtain ⟨more, rfl⟩ := hgrows
  intro j hj
  obtain ⟨symbol, hsymbol, hbits⟩ := ht j hj
  have hlt := (List.getElem?_eq_some_iff.mp hsymbol).1
  exact ⟨symbol, (List.getElem?_append_left hlt).trans hsymbol, hbits⟩

theorem Task.Delivered.of_sameCopy {received : List env.Sample} {s t : Task env}
    (hs : s.Delivered cfg received) (hsame : s.SameCopy t) : t.Delivered cfg received := by
  unfold Task.Delivered
  rw [hsame.numSymbolsCopied, hsame.asmPos, hsame.msgBuffer, hsame.ambCorrection]
  exact hs

theorem copySymbols_msgBuffer_of_lt (buffer : Buffer env) (toCopy : Nat) (t : Task env)
    {j : Nat} (hj : j < t.numSymbolsCopied) (k : Fin env.bitsPerSymbol) :
    (copySymbols cfg buffer toCopy t).msgBuffer (j * env.bitsPerSymbol + k) =
      t.msgBuffer (j * env.bitsPerSymbol + k) := by
  apply Memory.writeAll_outside
  intro i hi
  have hblock : (j + 1) * env.bitsPerSymbol ≤ (t.numSymbolsCopied + i) * env.bitsPerSymbol :=
    Nat.mul_le_mul_right _ (by omega)
  rw [Nat.succ_mul] at hblock
  omega

theorem copySymbols_msgBuffer_add (buffer : Buffer env) {toCopy : Nat} (t : Task env)
    {i : Nat} (hi : i < toCopy) (k : Fin env.bitsPerSymbol) :
    (copySymbols cfg buffer toCopy t).msgBuffer
        ((t.numSymbolsCopied + i) * env.bitsPerSymbol + k) =
      env.softDecisionMaker
        (env.mul (buffer.signalAt cfg (t.copyFrom + i)) t.ambCorrection) k := by
  unfold copySymbols
  dsimp only
  generalize hoffset : (fun i => (t.numSymbolsCopied + i) * env.bitsPerSymbol) = offset
  have haddress : (t.numSymbolsCopied + i) * env.bitsPerSymbol = offset i := by rw [← hoffset]
  rw [haddress, Memory.writeAll_apply _ _ _ hi]
  intro a _ b _ hab
  have hblock : (t.numSymbolsCopied + a + 1) * env.bitsPerSymbol ≤
      (t.numSymbolsCopied + b) * env.bitsPerSymbol := Nat.mul_le_mul_right _ (by omega)
  rw [Nat.succ_mul] at hblock
  rw [← hoffset]
  exact hblock

/-- Copying keeps the symbols that are there, and appends received ones. -/
theorem Task.Delivered.copySymbols {received : List env.Sample} {t : Task env}
    (ht : t.Delivered cfg received) (hwell : t.WellFormed cfg) {buffer : Buffer env}
    {toCopy : Nat} (hcopy : t.copyFrom + toCopy ≤ received.length)
    (hsignal : ∀ p, t.copyFrom ≤ p → ∀ hp : p < received.length,
      buffer.signalAt cfg p = received[p]) :
    (FrameSync.copySymbols cfg buffer toCopy t).Delivered cfg received := by
  have hfrom := hwell.copyFrom
  intro j hj
  by_cases hold : j < t.numSymbolsCopied
  · obtain ⟨symbol, hsymbol, hbits⟩ := ht j hold
    refine ⟨symbol, hsymbol, ?_⟩
    intro k
    exact (copySymbols_msgBuffer_of_lt buffer toCopy t hold k).trans (hbits k)
  · obtain ⟨i, rfl⟩ : ∃ i, j = t.numSymbolsCopied + i := ⟨j - t.numSymbolsCopied, by omega⟩
    have hi : i < toCopy := Nat.lt_of_add_lt_add_left hj
    have hposition : frameStart cfg t.asmPos.offset + (t.numSymbolsCopied + i) =
        t.copyFrom + i := by omega
    have hreceived : t.copyFrom + i < received.length := by omega
    refine ⟨received[t.copyFrom + i], ?_, ?_⟩
    · change received[frameStart cfg t.asmPos.offset + (t.numSymbolsCopied + i)]? = _
      rw [hposition, List.getElem?_eq_getElem hreceived]
    · intro k
      rw [copySymbols_msgBuffer_add buffer t hi, hsignal _ (Nat.le_add_right _ _) hreceived]
      rfl

theorem Task.Delivered.serveTask {received : List env.Sample} {t : Task env}
    (ht : t.Delivered cfg received) (hwell : t.WellFormed cfg) {buffer : Buffer env}
    (hsignal : ∀ p, buffer.offsetStart cfg ≤ p → ∀ hp : p < received.length,
      buffer.signalAt cfg p = received[p])
    (hreads : ¬ t.overreads cfg buffer received.length) :
    (FrameSync.serveTask cfg buffer t).Delivered cfg received := by
  have hstart := startFrame_sameCopy cfg buffer t
  obtain ⟨_, heq⟩ | ⟨_, _, heq⟩ | ⟨⟨hincomplete, hrange⟩, hpos, heq⟩ :=
    serveTask_cases cfg buffer t
  · rw [heq]
    exact ht
  · rw [heq]
    exact ht.of_sameCopy hstart
  · -- copying more than has been received would be an overread
    have hle : t.copyFrom + t.toCopy cfg buffer ≤ received.length := by
      apply Nat.le_of_not_lt
      intro hlt
      unfold Task.toCopy at hpos hlt
      exact hreads ⟨⟨hincomplete, hrange, by omega⟩, by omega, by omega⟩
    have hfrom := Task.le_copyFrom_of_inRange hrange
    rw [heq]
    refine Task.Delivered.of_sameCopy ?_ (completeFrame_sameCopy cfg _)
    apply (ht.of_sameCopy hstart).copySymbols (hwell.of_sameCopy hstart)
    · rw [hstart.copyFrom]
      exact hle
    · intro p hp
      rw [hstart.copyFrom] at hp
      exact hsignal p (Nat.le_trans hfrom hp)

/-- Flushing does not change what has been copied. -/
theorem flushTask_sameData (cfg : Config) {t s : Task env} (hflush : flushTask t = some s) :
    s.dataComplete = t.dataComplete ∧
      ∀ received, t.Delivered cfg received → s.Delivered cfg received := by
  obtain ⟨_, _, ⟨_, rfl⟩ | ⟨_, rfl⟩⟩ := flushTask_cases hflush
  · exact ⟨rfl, fun _ h => h⟩
  · exact ⟨rfl, fun _ h => h⟩

namespace Machine

/-- Processing the queue reads only received symbols. At the end of the stream it may
read others, but does not complete a frame with them. -/
def ReadsReceived (cfg : Config) (m : Machine env) : Prop :=
  m.point.isServing = true → ∀ t ∈ m.block.frameQueue,
    t.overreads cfg m.block.buffer m.received.length → m.point = .stopServe ∧
      m.block.buffer.offsetLastSymbol cfg + 1 < t.copyFrom + t.numRemaining

/-- The copied symbols have been received, except for the unfinished frames at the end. -/
structure Contents (cfg : Config) (m : Machine env) : Prop where
  queued : ∀ t ∈ m.block.frameQueue, t.dataComplete ∨ m.point.isEnding = false →
    t.Delivered cfg m.received
  published : ∀ t ∈ m.block.published, t.dataComplete → t.Delivered cfg m.received

theorem contents_start {additional : List AsmPosition} {b : Block env}
    (hb : construct cfg additional = some b) : Contents cfg (start b) := by
  obtain ⟨queue, hqueue, rfl⟩ := construct_eq hb
  have hnone : ∀ t ∈ queue, t.numSymbolsCopied = 0 :=
    forall_queueSecondary (fun _ _ _ => rfl) (by simp) hqueue
  exact ⟨fun t ht _ => Task.delivered_of_none_copied (hnone t ht), nofun⟩

theorem Contents.serve {m next : Machine env} (hcontents : Contents cfg m)
    (hwell : TasksWell cfg m) (hholds : HoldsReceived cfg m) (hreads : ReadsReceived cfg m)
    (hserving : m.point.isServing = true) (hreceived : next.received = m.received)
    (hpoint : m.point = .stopServe → next.point = .flush)
    (hblock : next.block = processFrameQueue cfg m.block) : Contents cfg next := by
  have hending := Point.not_isEnding_of_isServing hserving
  have hunsent := hwell.unsent (by intro h; rw [h] at hending; cases hending)
  -- an overread only happens in `stop`, and then leaves the task unfinished
  have hserved : ∀ s ∈ m.block.frameQueue,
      (serveTask cfg m.block.buffer s).dataComplete ∨ next.point.isEnding = false →
        (serveTask cfg m.block.buffer s).Delivered cfg m.received := by
    intro s hs hfinal
    apply (hcontents.queued s hs (Or.inr hending)).serveTask (hwell.queued s hs)
    · exact fun p hstart hp => hholds.signalAt hstart hp
    · intro hover
      obtain ⟨hstop, hless⟩ := hreads hserving s hs hover
      have hcopied := (serveTask_advances cfg m.block.buffer hover.1.1 hover.1.2.1).1
      have htotal := (serveTask_same cfg m.block.buffer s).numSymbolsTotal
      have hfrom := hover.1.2.2
      rw [Task.numRemaining, minusCapZero_eq_sub] at hless
      rw [hpoint hstop, Task.dataComplete, hcopied, htotal, beq_iff_eq, Task.toCopy,
        Task.numRemaining, minusCapZero_eq_sub] at hfinal
      rcases hfinal with h | h
      · omega
      · cases h
  constructor
  · intro t ht hfinal
    rw [hblock, mem_processFrameQueue cfg hunsent] at ht
    obtain ⟨s, hs, rfl, _⟩ := ht
    rw [hreceived]
    exact hserved s hs hfinal
  · intro t ht hcomplete
    rw [hblock, mem_published_processFrameQueue] at ht
    rw [hreceived]
    obtain hold | ⟨s, hs, _, rfl⟩ := ht
    · exact hcontents.published t hold hcomplete
    · exact hserved s hs (Or.inl hcomplete)

/-- Steps that leave the tasks alone keep their contents. -/
theorem Contents.keep {m next : Machine env} (hcontents : Contents cfg m)
    (hgrows : m.received <+: next.received) (hending : m.point.isEnding = false)
    (hqueue : next.block.frameQueue = m.block.frameQueue)
    (hout : next.block.out = m.block.out) : Contents cfg next := by
  constructor
  · intro t ht _
    rw [hqueue] at ht
    exact (hcontents.queued t ht (Or.inr hending)).mono hgrows
  · intro t ht hcomplete
    rw [Block.published, hout] at ht
    exact (hcontents.published t ht hcomplete).mono hgrows

theorem Contents.enqueue {m next : Machine env} (hcontents : Contents cfg m)
    (hgrows : m.received <+: next.received) (hending : m.point.isEnding = false)
    (index ambiguity : Nat) (hblock : next.block = processed cfg m.block index ambiguity) :
    Contents cfg next := by
  have hqueued : ∀ t ∈ next.block.frameQueue, t.Delivered cfg m.received := by
    rw [hblock]
    exact forall_processed index ambiguity
      (fun _ _ _ _ => Task.delivered_of_none_copied rfl)
      fun t ht => hcontents.queued t ht (Or.inr hending)
  constructor
  · exact fun t ht _ => (hqueued t ht).mono hgrows
  · intro t ht hcomplete
    rw [Block.published, hblock, processed_out] at ht
    exact (hcontents.published t ht hcomplete).mono hgrows

theorem Contents.flush {m next : Machine env} (hcontents : Contents cfg m)
    (hreceived : next.received = m.received) (hpoint : next.point = .stopped)
    (hblock : next.block = flushFrames m.block) : Contents cfg next := by
  constructor
  · intro t ht hfinal
    rw [hblock] at ht
    rw [hreceived]
    obtain ⟨s, hs, rfl⟩ := List.mem_map.mp ht
    have hcomplete : ((flushTask s).getD s).dataComplete := by
      rw [hpoint] at hfinal
      exact hfinal.resolve_right (by simp [Point.isEnding])
    cases hflush : flushTask s with
    | none =>
        rw [hflush] at hcomplete
        exact hcontents.queued s hs (Or.inl hcomplete)
    | some t =>
        obtain ⟨hsame, hdelivered⟩ := flushTask_sameData cfg hflush
        rw [hflush] at hcomplete
        exact hdelivered _ (hcontents.queued s hs (Or.inl (hsame ▸ hcomplete)))
  · intro t ht hcomplete
    rw [hblock, flushFrames_published, List.mem_append] at ht
    rw [hreceived]
    obtain hold | hnew := ht
    · exact hcontents.published t hold hcomplete
    · obtain ⟨s, hs, hflush⟩ := List.mem_filterMap.mp hnew
      obtain ⟨hsame, hdelivered⟩ := flushTask_sameData cfg hflush
      exact hdelivered _ (hcontents.queued s hs (Or.inl (hsame ▸ hcomplete)))

theorem Contents.step {m next : Machine env} {label : Label env.Sample}
    (hcontents : Contents cfg m) (hwell : TasksWell cfg m) (hholds : HoldsReceived cfg m)
    (hreads : ReadsReceived cfg m) (hmoves : Moves cfg m label next) : Contents cfg next := by
  have hgrows := hmoves.received_prefix
  cases hmoves.tasks with
  | keep hending hqueue hout _ => exact hcontents.keep hgrows hending hqueue hout
  | enqueue hending index ambiguity hblock =>
      exact hcontents.enqueue hgrows hending index ambiguity hblock
  | serve hserving hreceived hnext hblock =>
      exact hcontents.serve hwell hholds hreads hserving hreceived hnext hblock
  | flush _ hreceived hnext hblock => exact hcontents.flush hreceived hnext hblock

/-- In a call of `work` the window is not empty when the queue is processed. -/
structure Fed (cfg : Config) (m : Machine env) : Prop where
  window : m.received ≠ [] → cfg.historyLen < m.block.buffer.numItems
  leaving : m.point = .loop [] ∨ m.point = .finish → m.received ≠ []

/-- The received symbols fill the window behind the history. -/
theorem Counts.received_length {m : Machine env} (hcounts : Counts cfg m)
    (hworking : m.point.isWorking = true) (hwindow : cfg.historyLen < m.block.buffer.numItems) :
    m.block.buffer.offsetLastSymbol cfg + 1 = m.received.length := by
  have hequal := hcounts.received_eq hworking
  rw [Buffer.offsetLastSymbol_eq, minusCapZero_eq_sub]
  omega

@[simp] theorem beginStop_isWorking (m : Machine env) :
    (m.beginStop cfg).point.isWorking = false := by
  unfold beginStop
  split <;> rfl

@[simp] theorem stopSearch_isWorking (m : Machine env) (index ambiguity : Nat) :
    (m.search cfg index ambiguity .stopServe .stopRaised).point.isWorking = false := by
  rcases search_point cfg m index ambiguity .stopServe .stopRaised with h | h
  · rw [h]
    rfl
  · rw [h]
    rfl

theorem Moves.isWorking {m next : Machine env} {label : Label env.Sample}
    (hmoves : Moves cfg m label next) (hnext : next.point.isWorking = true) :
    m.point.isWorking = true := by
  cases hmoves with
  | stop | stopSearch => simp at hnext
  | stopServe | flush => cases hnext
  | _ => simp_all [Point.isWorking]

theorem fed_start (cfg : Config) (b : Block env) : Fed cfg (start b) :=
  ⟨fun h => absurd rfl h, by simp [start]⟩

theorem Fed.step {m next : Machine env} {label : Label env.Sample} (hasm : 2 ≤ cfg.asmLen)
    (hfed : Fed cfg m) (hcounts : Counts cfg m) (hlabel : label ≠ .work [])
    (hmoves : Moves cfg m label next) (hworking : next.point.isWorking = true) :
    Fed cfg next := by
  have hlen := bufferLen_eq cfg
  have hoverlap : cfg.overlapLen = cfg.asmLen - 1 := rfl
  have hblock := cfg.blockLen_pos
  cases hmoves with
  | call input hpoint =>
      refine ⟨hfed.window, ?_⟩
      rintro (hloop | hfinish)
      · exact absurd (congrArg Label.work (Point.loop.inj hloop)) hlabel
      · cases hfinish
  | leave hpoint => exact ⟨hfed.window, fun _ => hfed.leaving (Or.inl hpoint)⟩
  | read rest hrest hpoint =>
      have hmissing := hcounts.waiting (by rw [hpoint]; rfl)
      have hhistory := hcounts.history_le
      have hrestLength := List.length_pos_iff.mpr hrest
      constructor
      · intro _
        rw [readNext_block, readChunk_numItems]
        omega
      · intro _
        apply List.ne_nil_of_length_pos
        rw [readNext_received, List.length_append, List.length_take]
        omega
  | search rest index ambiguity hpoint hindex =>
      constructor
      · rw [search_received, search_block, processed_buffer]
        exact hfed.window
      · intro hleaving
        rcases search_point cfg m index ambiguity (.serve rest) .workRaised with h | h
        · simp [h] at hleaving
        · simp [h] at hleaving
  | serve | finish => exact ⟨hfed.window, nofun⟩
  | advance rest hpoint =>
      have hfull := hcounts.full (by rw [hpoint]; rfl)
      have hequal := hcounts.received_eq (by rw [hpoint]; rfl)
      constructor
      · intro _
        simp only [Buffer.advance_numItems]
        omega
      · intro _
        apply List.ne_nil_of_length_pos
        dsimp only
        omega
  | stop | stopSearch => simp at hworking
  | stopServe | flush => cases hworking

/-- While `work` runs and every call brings symbols, the window is not empty. -/
theorem fed_of_reachable (hasm : 2 ≤ cfg.asmLen) {additional : List AsmPosition} {b : Block env}
    (hb : construct cfg additional = some b) {m : Machine env}
    (hreachable : Transition.Reachable (step cfg) (fun _ label => label ≠ .work []) (start b) m) :
    m.point.isWorking = true → Fed cfg m := by
  apply invariant_of_reachable hb hreachable fun _ => fed_start cfg b
  intro s label next _ hsound hfed hlabel hmoves hnext
  exact (hfed (hmoves.isWorking hnext)).step hasm hsound.counts hlabel hmoves hnext

/-- What holds while `work` runs and every call brings symbols. -/
structure Working (cfg : Config) (m : Machine env) : Prop where
  fed : Fed cfg m
  contents : Contents cfg m
  complete : ∀ t ∈ m.block.published, t.dataComplete

theorem Working.readsReceived {m : Machine env} (hwork : Working cfg m) (hcounts : Counts cfg m)
    (hworking : m.point.isWorking = true) : ReadsReceived cfg m := by
  intro hserving t _ hover
  have hwindow : cfg.historyLen < m.block.buffer.numItems := by
    cases hpoint : m.point with
    | serve rest =>
        have hfull := hcounts.full (by rw [hpoint]; rfl)
        have hlen := bufferLen_eq cfg
        have hblock := cfg.blockLen_pos
        omega
    | finish => exact hwork.fed.window (hwork.fed.leaving (Or.inr hpoint))
    | _ => simp_all [Point.isServing, Point.isWorking]
  have hlast := hcounts.received_length hworking hwindow
  have hbehind := hover.2.1
  omega

theorem Working.step {m next : Machine env} {label : Label env.Sample} (hasm : 2 ≤ cfg.asmLen)
    (hwork : Working cfg m) (hsound : Sound cfg m) (hlabel : label ≠ .work [])
    (hmoves : Moves cfg m label next) (hworking : next.point.isWorking = true) :
    Working cfg next := by
  have hreads := hwork.readsReceived hsound.counts (hmoves.isWorking hworking)
  refine ⟨hwork.fed.step hasm hsound.counts hlabel hmoves hworking,
    hwork.contents.step hsound.well hsound.holds hreads hmoves, ?_⟩
  intro t ht
  cases hmoves.tasks with
  | keep _ _ hout _ =>
      rw [Block.published, hout] at ht
      exact hwork.complete t ht
  | enqueue _ index ambiguity hblock =>
      rw [Block.published, hblock, processed_out] at ht
      exact hwork.complete t ht
  | serve _ _ _ hblock =>
      rw [hblock, mem_published_processFrameQueue] at ht
      obtain hold | ⟨s, _, hready, rfl⟩ := ht
      · exact hwork.complete t hold
      · simp only [Task.isReady, Bool.and_eq_true] at hready
        exact hready.1.1
  | flush _ _ hnext _ =>
      rw [hnext] at hworking
      cases hworking

end Machine

/-- The symbols of a call of `work`. -/
def Label.input {Sample : Type} : Label Sample → List Sample
  | .work input => input
  | _ => []

/-- The symbols of the current call that have not been read. -/
def Point.unread {Sample : Type} : Point Sample → List Sample
  | .loop rest | .search rest | .serve rest | .advance rest => rest
  | _ => []

/-- The points from which further calls of `work` can follow. -/
def Point.isOpen {Sample : Type} : Point Sample → Bool
  | .workRaised | .stopSearch _ | .stopServe | .flush | .stopped | .stopRaised => false
  | _ => true

namespace Machine

/-- The symbols of all calls of `work`. -/
def inputs (labels : List (Label env.Sample)) : List env.Sample := labels.flatMap Label.input

/-- The symbols that the calls of `work` up to now have brought, unless an exception
has dropped the rest of a call. -/
def arrived (m : Machine env) : List env.Sample := m.received ++ m.point.unread

theorem Moves.arrived {m next : Machine env} {label : Label env.Sample}
    (hmoves : Moves cfg m label next) : next.arrived <+: m.arrived ++ label.input ∧
      (next.point.isOpen = true → next.arrived = m.arrived ++ label.input) ∧
      (m.point.isOpen = false → label.input = [] ∧ next.point.isOpen = false) := by
  cases hmoves with
  | call _ hpoint | leave hpoint | serve _ hpoint | advance _ hpoint | finish hpoint
  | stopServe hpoint | flush hpoint =>
      simp [Machine.arrived, Point.unread, Label.input, Point.isOpen, hpoint]
  | read rest hrest hpoint =>
      have hnext : (m.readNext cfg rest).arrived = m.received ++ rest := by
        rw [Machine.arrived, readNext_received, readNext_point]
        split <;> simp [Point.unread]
      rw [hnext]
      simp [Machine.arrived, Point.unread, Label.input, Point.isOpen, hpoint]
  | search rest index ambiguity hpoint hindex =>
      rcases search_point cfg m index ambiguity (.serve rest) .workRaised with h | h
      · simp [Machine.arrived, Point.unread, Label.input, Point.isOpen, hpoint, h]
      · simp [Machine.arrived, Point.unread, Label.input, Point.isOpen, hpoint, h]
  | stop hpoint =>
      unfold beginStop
      rcases hpoint with h | h
      · split <;> simp [Machine.arrived, Point.unread, Label.input, Point.isOpen, h]
      · split <;> simp [Machine.arrived, Point.unread, Label.input, Point.isOpen, h]
  | stopSearch maxItems index ambiguity hpoint hindex =>
      rcases search_point cfg m index ambiguity .stopServe .stopRaised with h | h
      · simp [Machine.arrived, Point.unread, Label.input, Point.isOpen, hpoint, h]
      · simp [Machine.arrived, Point.unread, Label.input, Point.isOpen, hpoint, h]

end Machine

theorem Task.data_getElem? {t : Task env} (hwell : t.WellFormed cfg) {i : Nat}
    (hi : i < cfg.outputLen) (k : Fin env.bitsPerSymbol) :
    t.data[i * env.bitsPerSymbol + k]? = some (t.msgBuffer (i * env.bitsPerSymbol + k)) := by
  have hblock : (i + 1) * env.bitsPerSymbol ≤ cfg.outputLen * env.bitsPerSymbol :=
    Nat.mul_le_mul_right _ hi
  rw [Nat.succ_mul] at hblock
  have hlt : i * env.bitsPerSymbol + k < t.numSymbolsTotal * env.bitsPerSymbol := by
    rw [hwell.numSymbolsTotal]
    omega
  simp [Task.data, hlt]

/-- The symbols of a frame are the corrected symbols of a stream at its position. -/
def Task.FollowsStream (cfg : Config) (stream : List env.Sample) (t : Task env) : Prop :=
  ∀ i < cfg.outputLen, ∃ (p : Nat) (symbol : env.Sample),
    (p : Int) = t.asmPos.offset + cfg.asmLen - cfg.head + i ∧ stream[p]? = some symbol ∧
    ∀ k : Fin env.bitsPerSymbol, t.data[i * env.bitsPerSymbol + k]? =
      some (env.softDecisionMaker
        (env.mul symbol (frameCorrection env t.asmPos.ambiguity)) k)

theorem Task.Delivered.followsStream {received stream : List env.Sample} {t : Task env}
    (ht : t.Delivered cfg received) (hwell : t.WellFormed cfg) (hcomplete : t.dataComplete)
    (hgrows : received <+: stream) : t.FollowsStream cfg stream := by
  have hcopied : t.numSymbolsCopied = cfg.outputLen :=
    (beq_iff_eq.mp hcomplete).trans hwell.numSymbolsTotal
  intro i hi
  obtain ⟨symbol, hsymbol, hbits⟩ := (ht.mono hgrows) i (hcopied ▸ hi)
  have hstart := frameStart_eq hwell.numHead_le
  refine ⟨frameStart cfg t.asmPos.offset + i, symbol, by omega, hsymbol, ?_⟩
  intro k
  rw [data_getElem? hwell hi k, hbits k, hwell.ambCorrection]

end GrCcsds.FrameSync
