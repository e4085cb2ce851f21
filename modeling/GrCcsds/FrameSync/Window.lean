import GrCcsds.FrameSync.Block
import GrCcsds.FrameSync.Layout
import Mathlib.Algebra.Order.Group.Nat

/-! # The buffer as a window onto the received stream

In every run the item counter, the offset counter and the number of received
symbols belong together, and the buffer holds the received symbols at their
absolute positions.
-/

namespace GrCcsds.FrameSync

open Utils Foundation

variable {env : Platform}

/-- The points at which the buffer holds nothing but received symbols. -/
def Point.isWorking {Sample : Type} : Point Sample → Bool
  | .stopSearch _ | .stopServe | .flush | .stopped | .stopRaised => false
  | _ => true

/-- The points between reading the last missing symbol and advancing. -/
def Point.isFull {Sample : Type} : Point Sample → Bool
  | .search _ | .serve _ | .advance _ | .workRaised => true
  | _ => false

/-- The points at which `work` waits for symbols. -/
def Point.isWaiting {Sample : Type} : Point Sample → Bool
  | .idle | .loop _ | .finish => true
  | _ => false

namespace Machine

variable (cfg : Config)

/-- What a step can do. -/
inductive Moves : Machine env → Label env.Sample → Machine env → Prop where
  | call (m : Machine env) (input : List env.Sample) (hpoint : m.point = .idle) :
    Moves m (.work input) { m with point := .loop input }
  | leave (m : Machine env) (hpoint : m.point = .loop []) :
    Moves m .proceed { m with point := .finish }
  | read (m : Machine env) (rest : List env.Sample) (hrest : rest ≠ [])
    (hpoint : m.point = .loop rest) : Moves m .proceed (m.readNext cfg rest)
  | search (m : Machine env) (rest : List env.Sample) (index ambiguity : Nat)
    (hpoint : m.point = .search rest) (hindex : index < cfg.blockLen) :
    Moves m (.found index ambiguity) (m.search cfg index ambiguity (.serve rest) .workRaised)
  | serve (m : Machine env) (rest : List env.Sample) (hpoint : m.point = .serve rest) :
    Moves m .proceed
      { m with point := .advance rest, block := processFrameQueue cfg m.block }
  | advance (m : Machine env) (rest : List env.Sample) (hpoint : m.point = .advance rest) :
    Moves m .proceed
      { m with
        point := .loop rest
        block := { m.block with buffer := m.block.buffer.advance cfg } }
  | finish (m : Machine env) (hpoint : m.point = .finish) :
    Moves m .proceed { m with point := .idle, block := processFrameQueue cfg m.block }
  | stop (m : Machine env) (hpoint : m.point = .idle ∨ m.point = .workRaised) :
    Moves m .stop (m.beginStop cfg)
  | stopSearch (m : Machine env) (maxItems index ambiguity : Nat)
    (hpoint : m.point = .stopSearch maxItems) (hindex : index < maxItems) :
    Moves m (.found index ambiguity) (m.search cfg index ambiguity .stopServe .stopRaised)
  | stopServe (m : Machine env) (hpoint : m.point = .stopServe) :
    Moves m .proceed { m with point := .flush, block := processFrameQueue cfg m.block }
  | flush (m : Machine env) (hpoint : m.point = .flush) :
    Moves m .proceed { m with point := .stopped, block := flushFrames m.block }

variable {cfg}

theorem moves_of_step {m next : Machine env} {label : Label env.Sample}
    (hstep : m.step cfg label = some next) : Moves cfg m label next := by
  unfold step at hstep
  split at hstep
  next input hpoint => cases hstep; exact .call m _ hpoint
  next hpoint => cases hstep; exact .leave m hpoint
  next hpoint => cases hstep; exact .read m _ (List.cons_ne_nil _ _) hpoint
  next hpoint =>
    split at hstep
    next hindex => cases hstep; exact .search m _ _ _ hpoint hindex
    next => cases hstep
  next hpoint => cases hstep; exact .serve m _ hpoint
  next hpoint => cases hstep; exact .advance m _ hpoint
  next hpoint => cases hstep; exact .finish m hpoint
  next hpoint => cases hstep; exact .stop m (Or.inl hpoint)
  next hpoint => cases hstep; exact .stop m (Or.inr hpoint)
  next hpoint =>
    split at hstep
    next hindex => cases hstep; exact .stopSearch m _ _ _ hpoint hindex
    next => cases hstep
  next hpoint => cases hstep; exact .stopServe m hpoint
  next hpoint => cases hstep; exact .flush m hpoint
  next => cases hstep

end Machine

namespace Buffer

variable (cfg : Config) (b : Buffer env)

theorem readSignal_snd (input : List env.Sample) (snrEnd : env.Snr) :
    (b.readSignal cfg input snrEnd).2 = min input.length (cfg.bufferLen - b.numItems) :=
  (cfg.layout env).readSignal_snd b input snrEnd

theorem readSignal_numItems (input : List env.Sample) (snrEnd : env.Snr) :
    (b.readSignal cfg input snrEnd).1.numItems =
      b.numItems + min input.length (cfg.bufferLen - b.numItems) :=
  (cfg.layout env).readSignal_numItems b input snrEnd

theorem readSignal_signal (input : List env.Sample) (snrEnd : env.Snr) :
    (b.readSignal cfg input snrEnd).1.signal =
      Memory.copy b.numItems (min input.length (cfg.bufferLen - b.numItems))
        (fun i => input.getD i env.zero) b.signal :=
  (cfg.layout env).readSignal_signal b input snrEnd

@[simp] theorem advance_numItems : (b.advance cfg).numItems = b.numItems - cfg.blockLen := rfl

@[simp] theorem advance_offsetCounter :
    (b.advance cfg).offsetCounter = b.offsetCounter + cfg.blockLen := rfl

end Buffer

theorem readChunk_buffer (cfg : Config) (b : Block env) (rest : List env.Sample) :
    (readChunk cfg b rest).1.buffer =
      (b.buffer.readSignal cfg (rest.take (min rest.length (b.buffer.numSymbolsMissing cfg)))
        (env.getSnr (env.updateEstimator b.snrEst
          (rest.take (min rest.length (b.buffer.numSymbolsMissing cfg)))))).1 := by
  simp only [readChunk, pickSmaller_eq_min]

theorem readChunk_snd (cfg : Config) (b : Block env) (rest : List env.Sample) :
    (readChunk cfg b rest).2 = min rest.length (cfg.bufferLen - b.buffer.numItems) := by
  simp only [readChunk, pickSmaller_eq_min, Buffer.readSignal_snd, List.length_take,
    Buffer.numSymbolsMissing_eq]
  omega

theorem readChunk_numItems (cfg : Config) (b : Block env) (rest : List env.Sample) :
    (readChunk cfg b rest).1.buffer.numItems =
      b.buffer.numItems + min rest.length (cfg.bufferLen - b.buffer.numItems) := by
  rw [readChunk_buffer, Buffer.readSignal_numItems, List.length_take, Buffer.numSymbolsMissing_eq]
  omega

@[simp] theorem readChunk_offsetCounter (cfg : Config) (b : Block env)
    (rest : List env.Sample) :
    (readChunk cfg b rest).1.buffer.offsetCounter = b.buffer.offsetCounter := rfl

@[simp] theorem processFrameQueue_buffer (cfg : Config) (b : Block env) :
    (processFrameQueue cfg b).buffer = b.buffer := rfl

@[simp] theorem fillOverlap_offsetCounter (cfg : Config) (b : Block env) :
    (fillOverlap cfg b).buffer.offsetCounter = b.buffer.offsetCounter := rfl

theorem fillOverlap_numItems (cfg : Config) (b : Block env) :
    (fillOverlap cfg b).buffer.numItems =
      b.buffer.numItems + min cfg.overlapLen (cfg.bufferLen - b.buffer.numItems) := by
  unfold fillOverlap
  rw [Buffer.readSignal_numItems, List.length_replicate]

/-- The frame that the result of a search stands for. -/
def foundFrame (b : Block env) (index ambiguity : Nat) : AsmPosition where
  offset := b.buffer.offset + index
  ambiguity := ambiguity
  sequence := b.sequenceNumber + 1

/-- The three ways to process the result of a search: an exception for the frame, an exception
for a secondary position, and none. -/
theorem processBuffer_cases (cfg : Config) (b : Block env) (index ambiguity : Nat) :
    queueFrameOutput cfg b.frameQueue (foundFrame b index ambiguity) true = none ∧
        processBuffer cfg b index ambiguity =
          .error { b with sequenceNumber := b.sequenceNumber + 1 } ∨
      ∃ queue next,
        queueFrameOutput cfg b.frameQueue (foundFrame b index ambiguity) true = some queue ∧
        (queueSecondary cfg (secondaryPositions cfg (foundFrame b index ambiguity)) queue =
              .error next ∧
            processBuffer cfg b index ambiguity =
              .error { b with frameQueue := next, sequenceNumber := b.sequenceNumber + 1 } ∨
          queueSecondary cfg (secondaryPositions cfg (foundFrame b index ambiguity)) queue =
              .ok next ∧
            processBuffer cfg b index ambiguity =
              .ok { b with frameQueue := next, sequenceNumber := b.sequenceNumber + 1 }) := by
  unfold processBuffer foundFrame
  dsimp only
  cases hfirst : queueFrameOutput cfg b.frameQueue
      ⟨b.buffer.offset + index, ambiguity, b.sequenceNumber + 1⟩ true with
  | none => exact Or.inl ⟨rfl, rfl⟩
  | some queue =>
      dsimp only
      cases hrest : queueSecondary cfg (secondaryPositions cfg
          ⟨b.buffer.offset + index, ambiguity, b.sequenceNumber + 1⟩) queue with
      | error next => exact Or.inr ⟨queue, next, rfl, Or.inl ⟨hrest, rfl⟩⟩
      | ok next => exact Or.inr ⟨queue, next, rfl, Or.inr ⟨hrest, rfl⟩⟩

/-- The state that `processBuffer` leaves, with or without an exception. -/
def processed (cfg : Config) (b : Block env) (index ambiguity : Nat) : Block env :=
  match processBuffer cfg b index ambiguity with
  | .error next => next
  | .ok next => next

/-- `processBuffer` changes nothing but the queue and the sequence number. -/
theorem processed_eq (cfg : Config) (b : Block env) (index ambiguity : Nat) :
    ∃ queue, processed cfg b index ambiguity =
      { b with frameQueue := queue, sequenceNumber := b.sequenceNumber + 1 } := by
  unfold processed
  obtain ⟨-, heq⟩ | ⟨_, next, -, ⟨-, heq⟩ | ⟨-, heq⟩⟩ := processBuffer_cases cfg b index ambiguity
  · rw [heq]
    exact ⟨_, rfl⟩
  · rw [heq]
    exact ⟨next, rfl⟩
  · rw [heq]
    exact ⟨next, rfl⟩

@[simp] theorem processed_buffer (cfg : Config) (b : Block env) (index ambiguity : Nat) :
    (processed cfg b index ambiguity).buffer = b.buffer := by
  obtain ⟨queue, heq⟩ := processed_eq cfg b index ambiguity
  rw [heq]

@[simp] theorem processed_out (cfg : Config) (b : Block env) (index ambiguity : Nat) :
    (processed cfg b index ambiguity).out = b.out := by
  obtain ⟨queue, heq⟩ := processed_eq cfg b index ambiguity
  rw [heq]

namespace Machine

variable {cfg : Config}

theorem search_block (m : Machine env) (index ambiguity : Nat)
    (success failure : Point env.Sample) :
    (m.search cfg index ambiguity success failure).block =
      processed cfg m.block index ambiguity := by
  unfold search processed
  cases processBuffer cfg m.block index ambiguity <;> rfl

@[simp] theorem search_received (m : Machine env) (index ambiguity : Nat)
    (success failure : Point env.Sample) :
    (m.search cfg index ambiguity success failure).received = m.received := by
  unfold search
  cases processBuffer cfg m.block index ambiguity <;> rfl

theorem search_point (cfg : Config) (m : Machine env) (index ambiguity : Nat)
    (success failure : Point env.Sample) :
    (m.search cfg index ambiguity success failure).point = success ∨
      (m.search cfg index ambiguity success failure).point = failure := by
  unfold search
  cases processBuffer cfg m.block index ambiguity with
  | error b => exact Or.inr rfl
  | ok b => exact Or.inl rfl

/-- How the counters of the buffer and the received symbols belong together. -/
structure Counts (cfg : Config) (m : Machine env) : Prop where
  history_le : cfg.historyLen ≤ m.block.buffer.numItems
  le_bufferLen : m.block.buffer.numItems ≤ cfg.bufferLen
  received_le : cfg.historyLen + m.received.length ≤
    m.block.buffer.numItems + m.block.buffer.offsetCounter
  received_eq : m.point.isWorking → m.block.buffer.numItems + m.block.buffer.offsetCounter =
    cfg.historyLen + m.received.length
  full : m.point.isFull → m.block.buffer.numItems = cfg.bufferLen
  waiting : m.point.isWaiting → m.block.buffer.numItems < cfg.bufferLen
  aligned : cfg.blockLen ∣ m.block.buffer.offsetCounter

theorem bufferLen_eq (cfg : Config) :
    cfg.bufferLen = cfg.historyLen + cfg.blockLen + cfg.overlapLen := rfl

theorem counts_start {b : Block env} (hb : b.buffer = .initial cfg) :
    Counts cfg (start b) := by
  have hblock := cfg.blockLen_pos
  have hlen : cfg.historyLen < cfg.bufferLen := by
    rw [bufferLen_eq]
    omega
  constructor <;> simp [start, hb, Point.isFull, hlen, Nat.le_of_lt hlen]

/-- A step that keeps the buffer keeps the counts, unless the new point asks for more. -/
theorem Counts.of_buffer {m next : Machine env} (hcounts : Counts cfg m)
    (hbuffer : next.block.buffer = m.block.buffer) (hreceived : next.received = m.received)
    (hworking : next.point.isWorking → m.point.isWorking)
    (hfull : next.point.isFull → m.point.isFull)
    (hwaiting : next.point.isWaiting → m.point.isWaiting) : Counts cfg next where
  history_le := hbuffer ▸ hcounts.history_le
  le_bufferLen := hbuffer ▸ hcounts.le_bufferLen
  received_le := hbuffer ▸ hreceived ▸ hcounts.received_le
  received_eq := fun h => hbuffer ▸ hreceived ▸ hcounts.received_eq (hworking h)
  full := fun h => hbuffer ▸ hcounts.full (hfull h)
  waiting := fun h => hbuffer ▸ hcounts.waiting (hwaiting h)
  aligned := hbuffer ▸ hcounts.aligned

theorem Counts.search {m : Machine env} (hcounts : Counts cfg m) (index ambiguity : Nat)
    {success failure : Point env.Sample}
    (hworking : m.point.isWorking ∨ success.isWorking = false ∧ failure.isWorking = false)
    (hfull : m.point.isFull ∨ success.isFull = false ∧ failure.isFull = false)
    (hwaiting : success.isWaiting = false ∧ failure.isWaiting = false) :
    Counts cfg (m.search cfg index ambiguity success failure) := by
  have hpoint := search_point cfg m index ambiguity success failure
  apply hcounts.of_buffer _ (search_received m index ambiguity success failure)
  · rcases hpoint with h | h <;> rw [h] <;> intro hnext <;> simp_all
  · rcases hpoint with h | h <;> rw [h] <;> intro hnext <;> simp_all
  · rcases hpoint with h | h <;> rw [h] <;> intro hnext <;> simp_all
  · rw [search_block, processed_buffer]

theorem readNext_block (m : Machine env) (rest : List env.Sample) :
    (m.readNext cfg rest).block = (readChunk cfg m.block rest).1 := rfl

theorem readNext_received (m : Machine env) (rest : List env.Sample) :
    (m.readNext cfg rest).received =
      m.received ++ rest.take (cfg.bufferLen - m.block.buffer.numItems) := by
  change m.received ++ rest.take (readChunk cfg m.block rest).2 = _
  rw [readChunk_snd, Nat.min_comm, ← List.take_eq_take_min]

theorem readNext_point (m : Machine env) (rest : List env.Sample) :
    (m.readNext cfg rest).point =
      if (m.readNext cfg rest).block.buffer.full cfg then
        .search (rest.drop (cfg.bufferLen - m.block.buffer.numItems))
      else .loop (rest.drop (cfg.bufferLen - m.block.buffer.numItems)) := by
  have hdrop : rest.drop (readChunk cfg m.block rest).2 =
      rest.drop (cfg.bufferLen - m.block.buffer.numItems) := by
    rw [readChunk_snd, Nat.min_comm, ← List.drop_eq_drop_min]
  rw [← hdrop]
  rfl

theorem Counts.readNext {m : Machine env} (hcounts : Counts cfg m) {rest : List env.Sample}
    (hpoint : m.point = .loop rest) : Counts cfg (m.readNext cfg rest) := by
  have hhistory := hcounts.history_le
  have hlen := hcounts.le_bufferLen
  have hequal := hcounts.received_eq (by rw [hpoint]; rfl)
  have hitems := readChunk_numItems cfg m.block rest
  have hlength : (m.readNext cfg rest).received.length =
      m.received.length + min rest.length (cfg.bufferLen - m.block.buffer.numItems) := by
    rw [readNext_received, List.length_append, List.length_take]
    omega
  refine ⟨?_, ?_, ?_, ?_, ?_, ?_, ?_⟩
  · rw [readNext_block, hitems]
    omega
  · rw [readNext_block, hitems]
    omega
  · rw [readNext_block, hitems, hlength, readChunk_offsetCounter]
    omega
  · intro _
    rw [readNext_block, hitems, hlength, readChunk_offsetCounter]
    omega
  · intro hfull
    rw [readNext_point] at hfull
    split at hfull
    next h => exact beq_iff_eq.mp h
    next => cases hfull
  · intro hwaiting
    rw [readNext_point] at hwaiting
    split at hwaiting
    next => cases hwaiting
    next h =>
      have hne : (m.readNext cfg rest).block.buffer.numItems ≠ cfg.bufferLen := by
        simpa [Buffer.full_eq] using h
      rw [readNext_block, hitems] at hne ⊢
      omega
  · exact hcounts.aligned

theorem Counts.beginStop {m : Machine env} (hcounts : Counts cfg m) :
    Counts cfg (m.beginStop cfg) := by
  have hhistory := hcounts.history_le
  have hlen := hcounts.le_bufferLen
  have hreceived := hcounts.received_le
  have hitems := fillOverlap_numItems cfg m.block
  unfold Machine.beginStop
  split
  · exact hcounts.of_buffer rfl rfl nofun nofun nofun
  · refine ⟨?_, ?_, ?_, nofun, nofun, nofun, hcounts.aligned⟩
    · rw [hitems]
      omega
    · rw [hitems]
      omega
    · change cfg.historyLen + m.received.length ≤ _
      rw [hitems, fillOverlap_offsetCounter]
      omega

theorem Counts.step {m next : Machine env} {label : Label env.Sample} (hcounts : Counts cfg m)
    (hmoves : Moves cfg m label next) : Counts cfg next := by
  cases hmoves with
  | call _ hpoint | leave hpoint | serve _ hpoint | finish hpoint | stopServe hpoint
  | flush hpoint =>
      refine hcounts.of_buffer rfl rfl ?_ ?_ ?_
      all_goals simp [hpoint, Point.isWorking, Point.isFull, Point.isWaiting]
  | read rest hrest hpoint => exact hcounts.readNext hpoint
  | search rest index ambiguity hpoint hindex =>
      exact hcounts.search index ambiguity (Or.inl (by rw [hpoint]; rfl))
        (Or.inl (by rw [hpoint]; rfl)) ⟨rfl, rfl⟩
  | advance rest hpoint =>
      have hblock := cfg.blockLen_pos
      have hfull := hcounts.full (by rw [hpoint]; rfl)
      have hequal := hcounts.received_eq (by rw [hpoint]; rfl)
      have hlen := bufferLen_eq cfg
      refine ⟨?_, ?_, ?_, ?_, nofun, ?_, ?_⟩
      · simp only [Buffer.advance_numItems]
        omega
      · simp only [Buffer.advance_numItems]
        omega
      · simp only [Buffer.advance_numItems, Buffer.advance_offsetCounter]
        omega
      · intro _
        simp only [Buffer.advance_numItems, Buffer.advance_offsetCounter]
        omega
      · intro _
        simp only [Buffer.advance_numItems]
        omega
      · exact Nat.dvd_add hcounts.aligned (Nat.dvd_refl _)
  | stop hpoint => exact hcounts.beginStop
  | stopSearch maxItems index ambiguity hpoint hindex =>
      exact hcounts.search index ambiguity (Or.inr ⟨rfl, rfl⟩) (Or.inr ⟨rfl, rfl⟩) ⟨rfl, rfl⟩

/-- The buffer holds the received symbols at their absolute positions. -/
def HoldsReceived (cfg : Config) (m : Machine env) : Prop :=
  ∀ i p (hp : p < m.received.length),
    m.block.buffer.offsetCounter + i = p + cfg.historyLen →
      m.block.buffer.signal i = m.received[p]

theorem HoldsReceived.signalAt {m : Machine env} (hholds : HoldsReceived cfg m) {p : Nat}
    (hstart : m.block.buffer.offsetStart cfg ≤ p) (hp : p < m.received.length) :
    m.block.buffer.signalAt cfg p = m.received[p] := by
  apply hholds _ p hp
  rw [Buffer.localOffset_eq, minusCapZero_eq_sub]
  rw [Buffer.offsetStart_eq, minusCapZero_eq_sub] at hstart
  omega

theorem HoldsReceived.of_buffer {m next : Machine env} (hholds : HoldsReceived cfg m)
    (hbuffer : next.block.buffer = m.block.buffer) (hreceived : next.received = m.received) :
    HoldsReceived cfg next := by
  unfold HoldsReceived
  rw [hbuffer, hreceived]
  exact hholds

theorem HoldsReceived.readNext {m : Machine env} (hholds : HoldsReceived cfg m)
    (hcounts : Counts cfg m) {rest : List env.Sample} (hpoint : m.point = .loop rest) :
    HoldsReceived cfg (m.readNext cfg rest) := by
  have hequal := hcounts.received_eq (by rw [hpoint]; rfl)
  intro i p hp hi
  rw [readNext_block, readChunk_offsetCounter] at hi
  rw [readNext_block, readChunk_buffer, Buffer.readSignal_signal]
  simp only [readNext_received, List.length_append, List.length_take] at hp
  simp only [readNext_received]
  -- old symbols stay in place, new ones follow the items of the buffer
  by_cases hold : p < m.received.length
  · rw [List.getElem_append_left hold, Memory.copy_outside _ _ (Or.inl (by omega))]
    exact hholds i p hold hi
  · obtain ⟨k, rfl⟩ : ∃ k, i = m.block.buffer.numItems + k :=
      ⟨i - m.block.buffer.numItems, by omega⟩
    have hk : p - m.received.length = k := by omega
    have hlt : k < min rest.length (m.block.buffer.numSymbolsMissing cfg) := by
      rw [Buffer.numSymbolsMissing_eq]
      omega
    rw [List.getElem_append_right (by omega), List.getElem_take, Memory.copy_inside]
    · have hrest : k < rest.length := Nat.lt_of_lt_of_le hlt (Nat.min_le_left _ _)
      simp only [List.getD_eq_getElem?_getD, List.getElem?_take_of_lt hlt, hk,
        List.getElem?_eq_getElem hrest, Option.getD_some]
    · rw [List.length_take, Buffer.numSymbolsMissing_eq]
      omega

theorem HoldsReceived.beginStop {m : Machine env} (hholds : HoldsReceived cfg m)
    (hcounts : Counts cfg m) (hworking : m.point.isWorking) :
    HoldsReceived cfg (m.beginStop cfg) := by
  have hequal := hcounts.received_eq hworking
  unfold Machine.beginStop
  split
  · exact hholds.of_buffer rfl rfl
  · intro i p hp hi
    -- the appended zeros lie behind every received symbol
    change m.block.buffer.offsetCounter + i = p + cfg.historyLen at hi
    change p < m.received.length at hp
    change (fillOverlap cfg m.block).buffer.signal i = m.received[p]
    unfold fillOverlap
    rw [Buffer.readSignal_signal, Memory.copy_outside _ _ (Or.inl (by omega))]
    exact hholds i p hp hi

theorem HoldsReceived.step {m next : Machine env} {label : Label env.Sample}
    (hholds : HoldsReceived cfg m) (hcounts : Counts cfg m) (hmoves : Moves cfg m label next) :
    HoldsReceived cfg next := by
  cases hmoves with
  | call | leave | serve | finish | stopServe | flush => exact hholds.of_buffer rfl rfl
  | read rest hrest hpoint => exact hholds.readNext hcounts hpoint
  | search | stopSearch =>
      exact hholds.of_buffer (by rw [search_block, processed_buffer]) (search_received ..)
  | advance rest hpoint =>
      have hfull := hcounts.full (by rw [hpoint]; rfl)
      have hequal := hcounts.received_eq (by rw [hpoint]; rfl)
      intro i p hp hi
      change p < m.received.length at hp
      change m.block.buffer.offsetCounter + cfg.blockLen + i = p + cfg.historyLen at hi
      change Buffer.rotate cfg.bufferLen cfg.blockLen m.block.buffer.signal i = m.received[p]
      rw [Buffer.rotate, if_pos (by omega), Nat.mod_eq_of_lt (by omega)]
      exact hholds _ p hp (by omega)
  | stop hpoint =>
      apply hholds.beginStop hcounts
      rcases hpoint with h | h <;> rw [h] <;> rfl

end Machine

end GrCcsds.FrameSync
