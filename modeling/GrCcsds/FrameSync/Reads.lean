import GrCcsds.FrameSync.Make
import GrCcsds.FrameSync.Service
import Mathlib.Data.List.Rotate

/-! # The positions that the block reads

Serving a task reads the buffer around the ASM of its frame and at the symbols
to copy. The buffer keeps `frames_before` blocks and the head symbols, but the
SNR only of the former. A read is held as long as its task keeps up with them.
-/

namespace GrCcsds.FrameSync

open Utils Foundation

variable {env : Platform} {cfg : Config}

namespace Buffer

section Asserts

variable (cfg : Config) (b : Buffer env)

def offsetEnd : Nat := minusCapZero (b.offsetCounter + cfg.blockLen + cfg.overlapLen) 1

/-- The number of symbols that `read_signal` has taken up to now. -/
def numDelivered : Nat := b.offsetCounter + b.numItems - cfg.historyLen

/-- The index of the first SNR tag of a position. An assertion precedes the difference. -/
def tagIndxStart (absPos : Nat) : Nat :=
  let localBlock := (b.localOffset cfg absPos - cfg.numHead) / cfg.blockLen
  if localBlock + 1 < b.snrTags.length then localBlock else b.snrTags.length - 2

/-- The assertions in `localOffset`. -/
structure LocalOffsetAsserts (absOffset maxLen : Nat) : Prop where
  ge_offsetStart : b.offsetStart cfg ≤ absOffset
  le_offsetEnd : absOffset ≤ b.offsetEnd cfg
  lt_maxLen : b.localOffset cfg absOffset < maxLen

/-- The assertions in `absoluteOffset`. -/
structure AbsoluteOffsetAsserts (localIndex : Nat) : Prop where
  lt_bufferLen : localIndex < cfg.bufferLen
  ge_historyLen : cfg.historyLen ≤ b.offsetCounter + localIndex

/-- The assertions in `snr` and in the functions that it calls. -/
structure SnrAsserts (absPos : Nat) : Prop where
  ge_offsetStart : b.offsetStart cfg ≤ absPos
  le_offsetLastSymbol : absPos ≤ b.offsetLastSymbol cfg
  localOffset : b.LocalOffsetAsserts cfg absPos cfg.bufferLen
  ge_numHead : cfg.numHead ≤ b.localOffset cfg absPos
  tagIndxEnd : b.tagIndxStart cfg absPos + 1 < b.snrTags.length
  absoluteOffset :
    b.AbsoluteOffsetAsserts cfg (cfg.numHead + b.tagIndxStart cfg absPos * cfg.blockLen)

end Asserts

/-- Behind its assertions `snr` uses the tags at this index. -/
theorem snr_eq {b : Buffer env} {absPos : Nat} (hhead : cfg.numHead ≤ b.localOffset cfg absPos)
    (hsize : b.localOffset cfg absPos < size64) :
    b.snr cfg absPos =
      { first := b.snrTags.getD (b.tagIndxStart cfg absPos) env.invalidSnr
        last := b.snrTags.getD (b.tagIndxStart cfg absPos + 1) env.invalidSnr
        offsetStart :=
          b.absoluteOffset cfg (cfg.numHead + b.tagIndxStart cfg absPos * cfg.blockLen)
        blockLength := cfg.blockLen } := by
  have hdifference : minusWrap (b.localOffset cfg absPos) cfg.numHead =
      b.localOffset cfg absPos - cfg.numHead := by
    rw [minusWrap, Nat.sub_add_comm hhead, Nat.add_mod_right]
    exact Nat.mod_eq_of_lt (Nat.lt_of_le_of_lt (Nat.sub_le _ _) hsize)
  unfold snr
  rw [hdifference]
  rfl

@[simp] theorem numDelivered_initial : (initial cfg : Buffer env).numDelivered cfg = 0 := by
  simp [numDelivered]

/-- What holds of the buffer in every run: its counters, and the number of its SNR tags. -/
structure Consistent (cfg : Config) (b : Buffer env) : Prop where
  history_le : cfg.historyLen ≤ b.numItems
  le_bufferLen : b.numItems ≤ cfg.bufferLen
  aligned : cfg.blockLen ∣ b.offsetCounter
  snrTags : b.snrTags.length = cfg.framesBefore + 2

variable {b : Buffer env} {absPos : Nat}

theorem Consistent.localOffsetAsserts (hb : b.Consistent cfg)
    (hstart : b.offsetStart cfg ≤ absPos) (hlast : absPos ≤ b.offsetLastSymbol cfg) :
    b.LocalOffsetAsserts cfg absPos cfg.bufferLen := by
  have hblock := cfg.blockLen_pos
  have hlen := Machine.bufferLen_eq cfg
  have hitems := hb.le_bufferLen
  rw [offsetLastSymbol_eq, minusCapZero_eq_sub] at hlast
  refine ⟨hstart, ?_, ?_⟩
  · rw [offsetEnd, minusCapZero_eq_sub]
    omega
  · rw [localOffset_eq, minusCapZero_eq_sub]
    omega

/-- The correlations that are computed cover every ASM before the last symbol. -/
theorem Consistent.correlationAsserts (hb : b.Consistent cfg)
    (hstart : b.offsetStart cfg ≤ absPos) (hlast : absPos + cfg.asmLen ≤ b.offsetLastSymbol cfg) :
    b.LocalOffsetAsserts cfg absPos (cfg.bufferLen - cfg.overlapLen) := by
  have hasserts := hb.localOffsetAsserts hstart (Nat.le_of_add_right_le hlast)
  have hlen := Machine.bufferLen_eq cfg
  have hblock : cfg.blockLen = cfg.asmLen + cfg.payloadLen := rfl
  have hoverlap : cfg.overlapLen = cfg.asmLen - 1 := rfl
  have hasm := cfg.asmLen_pos
  have hitems := hb.le_bufferLen
  rw [offsetLastSymbol_eq, minusCapZero_eq_sub] at hlast
  refine ⟨hasserts.ge_offsetStart, hasserts.le_offsetEnd, ?_⟩
  rw [localOffset_eq, minusCapZero_eq_sub]
  omega

theorem Consistent.tagIndxStart_le (hb : b.Consistent cfg) (absPos : Nat) :
    b.tagIndxStart cfg absPos ≤ cfg.framesBefore := by
  have htags := hb.snrTags
  unfold tagIndxStart
  dsimp only
  split <;> omega

/-- The position of the first SNR tag is not before the history. -/
theorem Consistent.le_tagIndxStart (hb : b.Consistent cfg)
    (hlocal : b.localOffset cfg absPos - cfg.numHead =
      absPos + cfg.framesBefore * cfg.blockLen - b.offset) :
    cfg.framesBefore * cfg.blockLen ≤
      b.offset + b.tagIndxStart cfg absPos * cfg.blockLen := by
  obtain ⟨q, hq⟩ := hb.aligned
  have htags := hb.snrTags
  unfold tagIndxStart
  rw [hlocal]
  dsimp only
  split
  next =>
    have hoffset : b.offset = q * cfg.blockLen := hq.trans (Nat.mul_comm _ _)
    have hdistance : (cfg.framesBefore - q) * cfg.blockLen ≤
        absPos + cfg.framesBefore * cfg.blockLen - b.offset := by
      rw [Nat.sub_mul, hoffset]
      omega
    have hblocks := Nat.mul_le_mul_right cfg.blockLen
      ((Nat.le_div_iff_mul_le cfg.blockLen_pos).mpr hdistance)
    rw [Nat.sub_mul, ← hoffset] at hblocks
    omega
  next =>
    rw [htags, Nat.add_sub_cancel]
    exact Nat.le_add_left _ _

/-- In the held range only the head part of the history has no SNR. -/
theorem Consistent.snrAsserts_iff (hb : b.Consistent cfg) (hstart : b.offsetStart cfg ≤ absPos)
    (hlast : absPos ≤ b.offsetLastSymbol cfg) :
    b.SnrAsserts cfg absPos ↔ b.offset ≤ absPos + cfg.framesBefore * cfg.blockLen := by
  have hhistory : cfg.historyLen = cfg.framesBefore * cfg.blockLen + cfg.numHead := rfl
  have hlocal : b.localOffset cfg absPos =
      absPos + cfg.framesBefore * cfg.blockLen + cfg.numHead - b.offset := by
    rw [localOffset_eq, minusCapZero_eq_sub, hhistory, Nat.add_assoc]
    rfl
  constructor
  · intro hasserts
    have hhead := hasserts.ge_numHead
    rw [offsetStart_eq, minusCapZero_eq_sub, hhistory] at hstart
    rw [hlocal] at hhead
    change b.offset - _ ≤ _ at hstart
    omega
  · intro hoffset
    have hblock := cfg.blockLen_pos
    have hlen := Machine.bufferLen_eq cfg
    have hindx := Nat.mul_le_mul_right cfg.blockLen (hb.tagIndxStart_le absPos)
    have hdistance : b.localOffset cfg absPos - cfg.numHead =
        absPos + cfg.framesBefore * cfg.blockLen - b.offset := by omega
    have htag := hb.le_tagIndxStart hdistance
    refine ⟨hstart, hlast, hb.localOffsetAsserts hstart hlast, by omega, ?_, ?_, ?_⟩
    · rw [hb.snrTags]
      exact Nat.succ_lt_succ (Nat.lt_succ_of_le (hb.tagIndxStart_le absPos))
    · omega
    · change _ ≤ b.offset + _
      omega

end Buffer

/-- A call of a reading function of the buffer. -/
inductive Read where
  | signal (absPos : Nat)
  | correlation (absPos : Nat)
  | energy (absPos : Nat)
  | snr (absPos : Nat)
deriving DecidableEq, Repr

namespace Read

def absPos : Read → Nat
  | .signal p | .correlation p | .energy p | .snr p => p

/-- The assertions on the way of a call. -/
def Asserts (cfg : Config) (b : Buffer env) : Read → Prop
  | .signal p | .energy p => b.LocalOffsetAsserts cfg p cfg.bufferLen
  | .correlation p => b.LocalOffsetAsserts cfg p (cfg.bufferLen - cfg.overlapLen)
  | .snr p => b.SnrAsserts cfg p

/-- The position is in the range of the buffer and has been delivered, and no assertion fails. -/
structure Held (cfg : Config) (b : Buffer env) (read : Read) : Prop where
  ge_offsetStart : b.offsetStart cfg ≤ read.absPos
  le_offsetLastSymbol : read.absPos ≤ b.offsetLastSymbol cfg
  delivered : read.absPos < b.numDelivered cfg
  asserts : read.Asserts cfg b

theorem held_of_delivered {b : Buffer env} {read : Read}
    (hstart : b.offsetStart cfg ≤ read.absPos) (hdelivered : read.absPos < b.numDelivered cfg)
    (hasserts : read.absPos ≤ b.offsetLastSymbol cfg → read.Asserts cfg b) : read.Held cfg b := by
  have hlast : read.absPos ≤ b.offsetLastSymbol cfg := by
    rw [Buffer.numDelivered] at hdelivered
    rw [Buffer.offsetLastSymbol_eq, minusCapZero_eq_sub]
    omega
  exact ⟨hstart, hlast, hdelivered, hasserts hlast⟩

/-- Two buffers return the same. -/
def Agrees (cfg : Config) (b c : Buffer env) : Read → Prop
  | .signal p => c.signalAt cfg p = b.signalAt cfg p
  | .correlation p => c.correlationAt cfg p = b.correlationAt cfg p
  | .energy p => c.energyAt cfg p = b.energyAt cfg p
  | .snr p => c.snr cfg p = b.snr cfg p

end Read

section Calls

variable (cfg : Config)

/-- The calls of `computeSingleScore`. -/
def scoreReads (asmPos : AsmPosition) : List Read :=
  (List.range cfg.asmLen).map (fun j => .energy (asmPos.offset + j)) ++
    [.correlation asmPos.offset, .snr asmPos.offset]

/-- The calls for the header of a task, if it is computed now. -/
def startReads (buffer : Buffer env) (t : Task env) : List Read :=
  let availFrom := buffer.offsetStart cfg
  let availUntil := buffer.offsetLastSymbol cfg
  let asmAvailable := decide (availFrom ≤ t.asmPos.offset) &&
    decide (availUntil ≥ t.asmPos.offset + cfg.asmLen)
  if !t.headerComputed && asmAvailable then scoreReads cfg t.asmPos else []

/-- The calls for the next symbols and for their soft decisions. -/
def copyReads (toCopy : Nat) (t : Task env) : List Read :=
  .snr t.copyFrom :: (List.range toCopy).map fun i => .signal (t.copyFrom + i)

/-- The calls in one iteration of the first loop of `processFrameQueue`. -/
def serveReads (buffer : Buffer env) (t : Task env) : List Read :=
  if t.dataComplete then []
  else if t.inRange cfg buffer then
    startReads cfg buffer t ++
      if t.toCopy cfg buffer = 0 then [] else copyReads (t.toCopy cfg buffer) t
  else []

variable {cfg}

theorem computeSingleScore_congr {b c : Buffer env} {asmPos : AsmPosition} (primary : Bool)
    (hagree : ∀ read ∈ scoreReads cfg asmPos, read.Agrees cfg b c) :
    computeSingleScore cfg c asmPos primary = computeSingleScore cfg b asmPos primary := by
  have henergy : ∀ j ∈ List.range cfg.asmLen,
      c.energyAt cfg (asmPos.offset + j) = b.energyAt cfg (asmPos.offset + j) := fun j hj =>
    hagree _ (List.mem_append_left _ (List.mem_map_of_mem hj))
  have hcorrelation : c.correlationAt cfg asmPos.offset = b.correlationAt cfg asmPos.offset :=
    hagree (.correlation asmPos.offset) (by simp [scoreReads])
  have hsnr : c.snr cfg asmPos.offset = b.snr cfg asmPos.offset :=
    hagree (.snr asmPos.offset) (by simp [scoreReads])
  have hsum : (List.range cfg.asmLen).foldl
      (fun sum j => env.addFloat sum (c.energyAt cfg (asmPos.offset + j))) env.zeroFloat =
        (List.range cfg.asmLen).foldl
          (fun sum j => env.addFloat sum (b.energyAt cfg (asmPos.offset + j))) env.zeroFloat :=
    List.foldl_ext _ _ _ fun sum j hj => by rw [henergy j hj]
  unfold computeSingleScore
  rw [hcorrelation, hsnr, hsum]

theorem offsetStart_congr {b c : Buffer env} (hoffset : c.offsetCounter = b.offsetCounter) :
    c.offsetStart cfg = b.offsetStart cfg := by
  rw [Buffer.offsetStart_eq, Buffer.offsetStart_eq, hoffset]

theorem offsetLastSymbol_congr {b c : Buffer env} (hoffset : c.offsetCounter = b.offsetCounter)
    (hitems : c.numItems = b.numItems) : c.offsetLastSymbol cfg = b.offsetLastSymbol cfg := by
  rw [Buffer.offsetLastSymbol_eq, Buffer.offsetLastSymbol_eq, hoffset, hitems]

theorem startFrame_congr {b c : Buffer env} (hoffset : c.offsetCounter = b.offsetCounter)
    (hitems : c.numItems = b.numItems) {t : Task env}
    (hagree : ∀ read ∈ startReads cfg b t, read.Agrees cfg b c) :
    startFrame cfg c t = startFrame cfg b t := by
  unfold startReads at hagree
  unfold startFrame
  dsimp only at hagree ⊢
  rw [offsetStart_congr hoffset, offsetLastSymbol_congr hoffset hitems]
  split
  next hnew =>
    rw [if_pos hnew] at hagree
    rw [computeSingleScore_congr t.primary hagree]
  next => rfl

theorem copySymbols_congr {b c : Buffer env} {toCopy : Nat} {t : Task env}
    (hagree : ∀ read ∈ copyReads toCopy t, read.Agrees cfg b c) :
    copySymbols cfg c toCopy t = copySymbols cfg b toCopy t := by
  have hsignal : ∀ i < toCopy,
      c.signalAt cfg (t.copyFrom + i) = b.signalAt cfg (t.copyFrom + i) := fun i hi =>
    hagree (.signal (t.copyFrom + i)) (by simp [copyReads, hi])
  unfold copySymbols
  rw [Memory.writeAll_congr fun i hi => by rw [hsignal i hi]]

/-- The two ways to serve a task in the window. -/
theorem serveTask_of_inRange {buffer : Buffer env} {t : Task env} (hincomplete : ¬ t.dataComplete)
    (hrange : t.inRange cfg buffer) :
    serveTask cfg buffer t = if t.toCopy cfg buffer = 0 then startFrame cfg buffer t
      else completeFrame cfg
        (copySymbols cfg buffer (t.toCopy cfg buffer) (startFrame cfg buffer t)) := by
  obtain ⟨hskip, _⟩ | ⟨_, hzero, heq⟩ | ⟨_, hpos, heq⟩ := serveTask_cases cfg buffer t
  · rcases hskip with h | h
    · exact absurd h hincomplete
    · exact absurd hrange h
  · rw [heq, if_pos hzero]
  · rw [heq, if_neg hpos.ne']

/-- Serving a task depends on the buffer only through its counters and the listed calls. -/
theorem serveTask_congr {b c : Buffer env} (hoffset : c.offsetCounter = b.offsetCounter)
    (hitems : c.numItems = b.numItems) {t : Task env}
    (hagree : ∀ read ∈ serveReads cfg b t, read.Agrees cfg b c) :
    serveTask cfg c t = serveTask cfg b t := by
  have hrange : t.inRange cfg c = t.inRange cfg b := by
    unfold Task.inRange
    rw [offsetStart_congr hoffset, offsetLastSymbol_congr hoffset hitems]
  have htoCopy : t.toCopy cfg c = t.toCopy cfg b := by
    unfold Task.toCopy
    rw [offsetLastSymbol_congr hoffset hitems]
  by_cases hcomplete : t.dataComplete
  · rw [serveTask_skips cfg c (Or.inl hcomplete), serveTask_skips cfg b (Or.inl hcomplete)]
  by_cases hin : t.inRange cfg b
  · rw [serveReads, if_neg hcomplete, if_pos hin, List.forall_mem_append] at hagree
    obtain ⟨hstartReads, hcopyReads⟩ := hagree
    rw [serveTask_of_inRange hcomplete hin, serveTask_of_inRange hcomplete (hrange ▸ hin),
      startFrame_congr hoffset hitems hstartReads, htoCopy]
    split
    next => rfl
    next hsome =>
      rw [if_neg hsome] at hcopyReads
      have hsame := startFrame_sameCopy cfg b t
      rw [copySymbols_congr]
      rwa [copyReads, hsame.copyFrom]
  · rw [serveTask_skips cfg c (Or.inr (hrange ▸ hin)), serveTask_skips cfg b (Or.inr hin)]

end Calls

namespace Buffer.Consistent

variable {b : Buffer env} {p : Nat}

theorem delivered_of_lt (hb : b.Consistent cfg) (hlast : p < b.offsetLastSymbol cfg) :
    p < b.numDelivered cfg := by
  have hhistory := hb.history_le
  rw [offsetLastSymbol_eq, minusCapZero_eq_sub] at hlast
  rw [numDelivered]
  omega

/-- The last symbol is the only one in the range that may be missing. -/
theorem le_numDelivered_iff (hb : b.Consistent cfg) (hlast : p ≤ b.offsetLastSymbol cfg + 1) :
    p ≤ b.numDelivered cfg ↔ (b.bufferCurrentEmpty cfg → p ≤ b.offset) := by
  have hhistory := hb.history_le
  rw [offsetLastSymbol_eq, minusCapZero_eq_sub] at hlast
  rw [bufferCurrentEmpty, decide_eq_true_eq, numDelivered]
  change _ ↔ (_ → p ≤ b.offsetCounter)
  omega

/-- Of the calls for a header only the one for the SNR can go wrong. -/
theorem scoreReads_held_iff (hb : b.Consistent cfg) {asmPos : AsmPosition}
    (hstart : b.offsetStart cfg ≤ asmPos.offset)
    (hlast : asmPos.offset + cfg.asmLen ≤ b.offsetLastSymbol cfg) :
    (∀ read ∈ scoreReads cfg asmPos, read.Held cfg b) ↔
      b.offset ≤ asmPos.offset + cfg.framesBefore * cfg.blockLen := by
  have hasm := cfg.asmLen_pos
  rw [← hb.snrAsserts_iff hstart (Nat.le_of_add_right_le hlast)]
  constructor
  · intro hheld
    exact (hheld (.snr asmPos.offset) (by simp [scoreReads])).asserts
  · intro hsnr read hread
    have hdelivered : asmPos.offset < b.numDelivered cfg := hb.delivered_of_lt (by omega)
    simp only [scoreReads, List.mem_append, List.mem_map, List.mem_range, List.mem_cons,
      List.not_mem_nil, or_false] at hread
    obtain ⟨j, hj, rfl⟩ | rfl | rfl := hread
    · have hoffset : b.offsetStart cfg ≤ asmPos.offset + j := Nat.le_add_right_of_le hstart
      exact Read.held_of_delivered hoffset (hb.delivered_of_lt (by change _ + j < _; omega))
        (hb.localOffsetAsserts hoffset)
    · exact Read.held_of_delivered hstart hdelivered fun _ => hb.correlationAsserts hstart hlast
    · exact Read.held_of_delivered hstart hdelivered fun _ => hsnr

/-- The calls for some next symbols of a task. -/
theorem copyReads_held_iff (hb : b.Consistent cfg) {t : Task env} {toCopy : Nat}
    (hsome : 0 < toCopy) (hstart : b.offsetStart cfg ≤ t.copyFrom)
    (hlast : t.copyFrom + toCopy ≤ b.offsetLastSymbol cfg + 1) :
    (∀ read ∈ copyReads toCopy t, read.Held cfg b) ↔
      b.offset ≤ t.copyFrom + cfg.framesBefore * cfg.blockLen ∧
        (b.bufferCurrentEmpty cfg → t.copyFrom + toCopy ≤ b.offset) := by
  rw [← hb.snrAsserts_iff hstart (by omega), ← hb.le_numDelivered_iff hlast]
  constructor
  · intro hheld
    have hcopied := (hheld (.signal (t.copyFrom + (toCopy - 1)))
      (by simp [copyReads, Nat.sub_one_lt_of_lt hsome])).delivered
    change t.copyFrom + (toCopy - 1) < _ at hcopied
    exact ⟨(hheld (.snr t.copyFrom) (by simp [copyReads])).asserts, by omega⟩
  · rintro ⟨hsnr, hdelivered⟩ read hread
    simp only [copyReads, List.mem_cons, List.mem_map, List.mem_range] at hread
    obtain rfl | ⟨i, hi, rfl⟩ := hread
    · exact Read.held_of_delivered hstart (by change t.copyFrom < _; omega) fun _ => hsnr
    · have hoffset : b.offsetStart cfg ≤ t.copyFrom + i := Nat.le_add_right_of_le hstart
      exact Read.held_of_delivered hoffset (by change t.copyFrom + i < _; omega)
        (hb.localOffsetAsserts hoffset)

/-- The calls for the header of a task in the window. -/
theorem startReads_held_iff (hb : b.Consistent cfg) {t : Task env} (hrange : t.inRange cfg b) :
    (∀ read ∈ startReads cfg b t, read.Held cfg b) ↔
      (t.headerComputed = false → t.asmPos.offset + cfg.asmLen ≤ b.offsetLastSymbol cfg →
        b.offset ≤ t.asmPos.offset + cfg.framesBefore * cfg.blockLen) := by
  unfold startReads
  dsimp only
  split
  next hnew =>
    simp only [Bool.and_eq_true, Bool.not_eq_true', decide_eq_true_eq, ge_iff_le] at hnew
    obtain ⟨hcomputed, hstart, hlast⟩ := hnew
    rw [hb.scoreReads_held_iff hstart hlast]
    exact ⟨fun h _ _ => h, fun h => h hcomputed hlast⟩
  next hnew =>
    constructor
    · intro _ hcomputed hlast
      apply absurd _ hnew
      simp [hcomputed, hlast, Task.le_asmOffset_of_inRange hrange hcomputed]
    · intro _ read hread
      exact absurd hread List.not_mem_nil

theorem offsetLastSymbol_of_empty (hempty : b.bufferCurrentEmpty cfg) :
    b.offsetLastSymbol cfg = b.offset := by
  rw [bufferCurrentEmpty, decide_eq_true_eq] at hempty
  rw [offsetLastSymbol_eq, minusCapZero_eq_sub, Nat.sub_eq_zero_of_le (Nat.le_succ_of_le hempty)]
  rfl

/-- The calls for the symbols of a task in the window. -/
theorem nextReads_held_iff (hb : b.Consistent cfg) {t : Task env}
    (hremaining : 0 < t.numRemaining) (hfrom : b.offsetStart cfg ≤ t.copyFrom) :
    (∀ read ∈ if t.toCopy cfg b = 0 then [] else copyReads (t.toCopy cfg b) t,
      read.Held cfg b) ↔ (t.copyFrom ≤ b.offsetLastSymbol cfg →
        b.offset ≤ t.copyFrom + cfg.framesBefore * cfg.blockLen ∧
          (b.bufferCurrentEmpty cfg → t.copyFrom + t.numRemaining ≤ b.offset)) := by
  have htoCopy : t.toCopy cfg b =
    min t.numRemaining (b.offsetLastSymbol cfg + 1 - t.copyFrom) := rfl
  split
  next hnone =>
    constructor
    · intro _ hlast
      omega
    · intro _ read hread
      exact absurd hread List.not_mem_nil
  next hsome =>
    have hlast : t.copyFrom + t.toCopy cfg b ≤ b.offsetLastSymbol cfg + 1 := by omega
    -- in an empty window the task stays within the delivered symbols if they complete it
    have hwindow : (b.bufferCurrentEmpty cfg → t.copyFrom + t.toCopy cfg b ≤ b.offset) ↔
        (b.bufferCurrentEmpty cfg → t.copyFrom + t.numRemaining ≤ b.offset) := by
      apply forall_congr'
      intro hempty
      have hequal := offsetLastSymbol_of_empty hempty
      omega
    rw [hb.copyReads_held_iff (Nat.pos_of_ne_zero hsome) hfrom hlast, hwindow]
    exact ⟨fun h _ => h, fun h => h (by omega)⟩

end Buffer.Consistent

/-- A task keeps up if its header is computed and its symbols are copied while they have an
SNR, and if no symbols are copied past the end of an empty window. -/
structure Task.KeepsUp (cfg : Config) (buffer : Buffer env) (t : Task env) : Prop where
  header : t.headerComputed = false →
    t.asmPos.offset + cfg.asmLen ≤ buffer.offsetLastSymbol cfg →
      buffer.offset ≤ t.asmPos.offset + cfg.framesBefore * cfg.blockLen
  copy : t.copyFrom ≤ buffer.offsetLastSymbol cfg →
    buffer.offset ≤ t.copyFrom + cfg.framesBefore * cfg.blockLen
  window : t.copyFrom ≤ buffer.offsetLastSymbol cfg → buffer.bufferCurrentEmpty cfg →
    t.copyFrom + t.numRemaining ≤ buffer.offset

/-- The calls for a task are held if and only if it keeps up. -/
theorem Buffer.Consistent.serveReads_held_iff {b : Buffer env} (hb : b.Consistent cfg)
    {t : Task env} (hwell : t.WellFormed cfg) (hincomplete : ¬ t.dataComplete)
    (hrange : t.inRange cfg b) :
    (∀ read ∈ serveReads cfg b t, read.Held cfg b) ↔ t.KeepsUp cfg b := by
  have hremaining : 0 < t.numRemaining := by
    have hle := hwell.copied_le
    rw [Task.dataComplete_iff] at hincomplete
    rw [Task.numRemaining, minusCapZero_eq_sub]
    omega
  have hfrom := Task.le_copyFrom_of_inRange hrange
  rw [serveReads, if_neg hincomplete, if_pos hrange, List.forall_mem_append,
    hb.startReads_held_iff hrange, hb.nextReads_held_iff hremaining hfrom]
  constructor
  · rintro ⟨hheader, hcopy⟩
    exact ⟨hheader, fun h => (hcopy h).1, fun h => (hcopy h).2⟩
  · intro hkeeps
    exact ⟨hkeeps.header, fun h => ⟨hkeeps.copy h, hkeeps.window h⟩⟩

namespace Machine

/-- No step changes the number of SNR tags. -/
theorem Moves.snrTags_length {m next : Machine env} {label : Label env.Sample}
    (hmoves : Moves cfg m label next) :
    next.block.buffer.snrTags.length = m.block.buffer.snrTags.length := by
  cases hmoves with
  | read rest _ _ =>
      rw [readNext_block, readChunk_buffer]
      exact List.length_set
  | search | stopSearch => rw [search_block, processed_buffer]
  | advance rest _ => exact List.length_set.trans (List.length_rotate _ _)
  | stop _ =>
      unfold beginStop
      split
      · rfl
      · exact List.length_set
  | _ => rfl

theorem snrTags_length_start {additional : List AsmPosition} {b : Block env}
    (hb : construct cfg additional = some b) :
    b.buffer.snrTags.length = cfg.framesBefore + 2 := by
  obtain ⟨queue, _, rfl⟩ := construct_eq hb
  change (List.replicate (1 + cfg.framesBefore + 1) env.invalidSnr).length = _
  rw [List.length_replicate, Nat.add_comm 1]

/-- The buffer is consistent in every state of a run. -/
theorem consistent_of_reachable {additional : List AsmPosition} {b : Block env}
    (hb : construct cfg additional = some b)
    {allowed : Machine env → Label env.Sample → Prop} {m : Machine env}
    (hreachable : Transition.Reachable (step cfg) allowed (start b) m) :
    m.block.buffer.Consistent cfg := by
  have hcounts := (sound_of_reachable hb hreachable).counts
  refine ⟨hcounts.history_le, hcounts.le_bufferLen, hcounts.aligned, ?_⟩
  apply invariant_of_reachable hb hreachable (snrTags_length_start hb)
  intro _ _ _ _ _ htags _ hmoves
  exact hmoves.snrTags_length.trans htags

/-- The symbols that `work` has read are those that the buffer has taken. -/
theorem Counts.numDelivered {m : Machine env} (hcounts : Counts cfg m)
    (hworking : m.point.isWorking = true) :
    m.block.buffer.numDelivered cfg = m.received.length := by
  have hequal := hcounts.received_eq hworking
  rw [Buffer.numDelivered]
  omega

/-- Every call of the buffer is held if the queue is processed now. -/
def ReadsHeld (cfg : Config) (m : Machine env) : Prop :=
  m.point.isServing = true → ∀ t ∈ m.block.frameQueue,
    ∀ read ∈ serveReads cfg m.block.buffer t, read.Held cfg m.block.buffer

/-- The tasks that are served if the queue is processed now keep up. -/
def KeepsUp (cfg : Config) (m : Machine env) : Prop :=
  m.point.isServing = true → ∀ t ∈ m.block.frameQueue, ¬ t.dataComplete →
    t.inRange cfg m.block.buffer → t.KeepsUp cfg m.block.buffer

theorem readsHeld_iff {m : Machine env} (hsound : Sound cfg m)
    (hconsistent : m.block.buffer.Consistent cfg) : ReadsHeld cfg m ↔ KeepsUp cfg m := by
  apply forall_congr'
  intro _
  apply forall₂_congr
  intro t ht
  by_cases hcomplete : t.dataComplete
  · simp [serveReads, hcomplete]
  by_cases hrange : t.inRange cfg m.block.buffer
  · rw [hconsistent.serveReads_held_iff (hsound.well.queued t ht) hcomplete hrange]
    exact ⟨fun h _ _ => h, fun h => h hcomplete hrange⟩
  · simp [serveReads, hcomplete, hrange]

/-- The window is only empty before the first symbol. -/
def EmptyAtStart (cfg : Config) (m : Machine env) : Prop :=
  m.block.buffer.bufferCurrentEmpty cfg → m.block.buffer.offset = 0

theorem emptyAtStart_start {additional : List AsmPosition} {b : Block env}
    (hb : construct cfg additional = some b) : EmptyAtStart cfg (start b) := by
  obtain ⟨queue, _, rfl⟩ := construct_eq hb
  exact fun _ => rfl

theorem EmptyAtStart.step {m next : Machine env} {label : Label env.Sample}
    (hempty : EmptyAtStart cfg m) (hcounts : Counts cfg next)
    (hfed : next.point.isWorking = true → Fed cfg next) (hmoves : Moves cfg m label next) :
    EmptyAtStart cfg next := by
  by_cases hworking : next.point.isWorking = true
  · intro hnext
    rw [Buffer.bufferCurrentEmpty, decide_eq_true_eq] at hnext
    have hnone : next.received = [] := by
      by_contra hne
      exact absurd ((hfed hworking).window hne) (Nat.not_lt_of_le hnext)
    have hequal := hcounts.received_eq hworking
    rw [hnone, List.length_nil] at hequal
    have hhistory := hcounts.history_le
    change next.block.buffer.offsetCounter = 0
    omega
  cases hmoves with
  | stop _ =>
      unfold beginStop
      split
      · exact hempty
      · -- the window is not empty, and more zeros follow
        intro hnext
        apply hempty
        rw [Buffer.bufferCurrentEmpty, decide_eq_true_eq] at hnext ⊢
        dsimp only at hnext
        rw [fillOverlap_numItems] at hnext
        omega
  | stopSearch =>
      rw [EmptyAtStart, search_block, processed_buffer]
      exact hempty
  | stopServe | flush => exact hempty
  | read rest =>
      rw [readNext_point] at hworking
      split at hworking
      · exact absurd rfl hworking
      · exact absurd rfl hworking
  | search rest index ambiguity =>
      rcases search_point cfg m index ambiguity (.serve rest) .workRaised with h | h
      · exact absurd (congrArg Point.isWorking h) hworking
      · exact absurd (congrArg Point.isWorking h) hworking
  | _ => exact absurd rfl hworking

/-- Without extra head symbols the history is made of whole blocks. -/
theorem EmptyAtStart.keepsUp {m : Machine env} (hempty : EmptyAtStart cfg m)
    (hsound : Sound cfg m) (hhead : cfg.head ≤ 0) : KeepsUp cfg m := by
  have hhistory : cfg.historyLen = cfg.framesBefore * cfg.blockLen + cfg.numHead := rfl
  have hnumHead := cfg.numHead_eq
  have hasm := cfg.asmLen_pos
  have hblocks : ∀ p, m.block.buffer.offsetStart cfg ≤ p →
      m.block.buffer.offset ≤ p + cfg.framesBefore * cfg.blockLen := by
    intro p hstart
    rw [Buffer.offsetStart_eq, minusCapZero_eq_sub] at hstart
    change m.block.buffer.offsetCounter ≤ _
    omega
  intro _ t ht _ hrange
  refine ⟨fun hcomputed _ => hblocks _ (Task.le_asmOffset_of_inRange hrange hcomputed),
    fun _ => hblocks _ (Task.le_copyFrom_of_inRange hrange), ?_⟩
  intro hlast hwindow
  -- a frame starts behind its ASM, and so behind the first position of the stream
  have hwell := hsound.well.queued t ht
  have hcopyFrom := hwell.copyFrom
  have hstart := frameStart_eq hwell.numHead_le
  have hoffset := hempty hwindow
  rw [Buffer.bufferCurrentEmpty, decide_eq_true_eq] at hwindow
  rw [Buffer.offsetLastSymbol_eq, minusCapZero_eq_sub] at hlast
  change m.block.buffer.offsetCounter = 0 at hoffset
  omega

end Machine

/-- In every run exactly those states read positions that are not held in which a task
does not keep up. -/
theorem reads_held_iff {additional : List AsmPosition} {b : Block env}
    (hb : construct cfg additional = some b) {m : Machine env}
    (hreachable : Transition.Reachable (Machine.step cfg) (fun _ _ => True) (.start b) m) :
    m.ReadsHeld cfg ↔ m.KeepsUp cfg := by
  exact Machine.readsHeld_iff (Machine.sound_of_reachable hb hreachable)
    (Machine.consistent_of_reachable hb hreachable)

instance (cfg : Config) (buffer : Buffer env) (t : Task env) :
    Decidable (t.KeepsUp cfg buffer) :=
  decidable_of_iff
    ((t.headerComputed = false → t.asmPos.offset + cfg.asmLen ≤ buffer.offsetLastSymbol cfg →
        buffer.offset ≤ t.asmPos.offset + cfg.framesBefore * cfg.blockLen) ∧
      (t.copyFrom ≤ buffer.offsetLastSymbol cfg →
        buffer.offset ≤ t.copyFrom + cfg.framesBefore * cfg.blockLen) ∧
      (t.copyFrom ≤ buffer.offsetLastSymbol cfg → buffer.bufferCurrentEmpty cfg →
        t.copyFrom + t.numRemaining ≤ buffer.offset))
    ⟨fun ⟨header, copy, window⟩ => ⟨header, copy, window⟩,
      fun hkeeps => ⟨hkeeps.header, hkeeps.copy, hkeeps.window⟩⟩

instance (cfg : Config) (m : Machine env) : Decidable (m.KeepsUp cfg) := by
  unfold Machine.KeepsUp
  infer_instance

theorem reads_held_first_block : ∃ m : Machine realPlatform,
    Transition.run (Machine.step shortConfig) (.start (.initial shortConfig))
      (shortRun.take 3) = some m ∧ m.point.isServing = true ∧ m.block.frameQueue ≠ [] ∧
      m.ReadsHeld shortConfig := by
  have hconstruct : construct shortConfig [] =
      some (Block.initial shortConfig : Block realPlatform) := rfl
  obtain ⟨m, hrun, hpoint, hqueue, hkeeps⟩ : ∃ m : Machine realPlatform,
      Transition.run (Machine.step shortConfig) (.start (.initial shortConfig))
        (shortRun.take 3) = some m ∧ m.point.isServing = true ∧ m.block.frameQueue ≠ [] ∧
        m.KeepsUp shortConfig := ⟨_, rfl, rfl, List.cons_ne_nil _ _, by decide⟩
  have hreachable : Transition.Reachable (Machine.step shortConfig) (fun _ _ => True)
      (.start (.initial shortConfig)) m :=
    Transition.reachable_of_run hrun
  exact ⟨m, hrun, hpoint, hqueue, (reads_held_iff hconstruct hreachable).mpr hkeeps⟩

/-- A frame at the last index of a block, whose header is computed in the next block. -/
def lateHeaderRun : List (Label realPlatform.Sample) :=
  [.work [1, 1, 5, 1, 1], .proceed, .found 2 0, .proceed, .proceed, .proceed, .proceed]

/-- For an accepted configuration the header asks for the SNR in the head part of the history. -/
theorem header_snr_not_held :
    (∃ (asmHex : String) (c : SyncConfig Int),
      make signConstellation asmHex 2 1 2 0 = .ok c ∧ c.config 0 0 = headConfig) ∧
    .work [] ∉ lateHeaderRun ∧
    ∃ (m : Machine realPlatform) (t : Task realPlatform),
      Transition.run (Machine.step headConfig) (.start (.initial headConfig)) lateHeaderRun =
        some m ∧ m.point.isServing = true ∧ t ∈ m.block.frameQueue ∧
        serveReads headConfig m.block.buffer t =
          [.energy 2, .energy 3, .correlation 2, .snr 2, .snr 4, .signal 4] ∧
        m.block.buffer.localOffset headConfig 2 = 1 ∧ headConfig.numHead = 2 ∧
        ¬ m.ReadsHeld headConfig := by
  refine ⟨exists_make headConfig, by simp [lateHeaderRun], _, _, rfl, rfl, List.mem_cons_self,
    rfl, rfl, rfl, ?_⟩
  intro hheld
  have hasserts := (hheld rfl _ List.mem_cons_self (.snr 2) (by decide)).asserts
  exact absurd hasserts.ge_numHead (by decide)

/-- Without extra head symbols, an ASM of more than one symbol and calls that bring symbols
keep every read held. -/
theorem reads_held_of_head_nonpos (hasm : 2 ≤ cfg.asmLen) (hhead : cfg.head ≤ 0)
    {additional : List AsmPosition} {b : Block env} (hb : construct cfg additional = some b)
    {m : Machine env} (hreachable : Transition.Reachable (Machine.step cfg)
      (fun _ label => label ≠ .work []) (.start b) m) : m.ReadsHeld cfg := by
  have hsound := Machine.sound_of_reachable hb hreachable
  have hempty : m.EmptyAtStart cfg := by
    apply Machine.invariant_of_reachable hb hreachable (Machine.emptyAtStart_start hb)
    intro s label next hreached hsound hempty hlabel hmoves
    exact hempty.step (hsound.counts.step hmoves)
      (fun hworking => (Machine.fed_of_reachable hasm hb hreached
        (hmoves.isWorking hworking)).step hasm hsound.counts hlabel hmoves hworking) hmoves
  exact (Machine.readsHeld_iff hsound (Machine.consistent_of_reachable hb hreachable)).mpr
    (hempty.keepsUp hsound hhead)

end GrCcsds.FrameSync
