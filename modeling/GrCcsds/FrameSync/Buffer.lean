import GrCcsds.Foundation.Memory
import GrCcsds.FrameSync.Config

/-! # The shifting buffer of the frame synchronisation

`frame_sync_buffer`: a history of previous blocks and head symbols, the current
block and an overlap. Every position is addressed by its absolute offset in the
stream. The constructor takes the block length apart from the ASM, and the
buffer of the block is the one whose block length is that of a frame. Assertions
are compiled out of the default release build and do not take part.
-/

namespace GrCcsds.FrameSync

open Utils Foundation

structure Buffer (env : Platform) where
  signal : Nat → env.Sample
  correlation : Nat → env.Sample
  energy : Nat → env.Float
  snrTags : List env.Snr
  numItems : Nat
  offsetCounter : Nat

namespace Buffer

variable {env : Platform} (b : Buffer env)

def offset : Nat := b.offsetCounter

def setSnrCurrentEnd (snr : env.Snr) : Buffer env :=
  { b with snrTags := b.snrTags.set (minusCapZero b.snrTags.length 1) snr }

def snrCurrentStart : env.Snr :=
  b.snrTags.getD (minusCapZero b.snrTags.length 2) env.invalidSnr

def snrCurrentEnd : env.Snr :=
  b.snrTags.getD (minusCapZero b.snrTags.length 1) env.invalidSnr

/-- `std::rotate` of an array by one block to the left. -/
def rotate {α : Type} (length shift : Nat) (array : Nat → α) : Nat → α :=
  fun i => if i < length then array ((i + shift) % length) else array i

end Buffer

/-- The arguments of the constructor. -/
structure Layout (Sample : Type) where
  blockLen : Nat
  asmLen : Nat
  asmLen_pos : 0 < asmLen
  /-- The conjugated ASM symbols. -/
  asmConj : Nat → Sample
  numHistoryFrames : Nat
  numHead : Nat

namespace Layout

section Lengths

variable {Sample : Type} (layout : Layout Sample)

def overlapLen : Nat := layout.asmLen - 1

def historyLen : Nat := layout.numHistoryFrames * layout.blockLen + layout.numHead

def bufferLen : Nat := layout.historyLen + layout.blockLen + layout.overlapLen

theorem bufferLen_eq :
    layout.bufferLen = layout.historyLen + layout.blockLen + layout.overlapLen := rfl

theorem overlapLen_add_one : layout.overlapLen + 1 = layout.asmLen :=
  Nat.sub_add_cancel layout.asmLen_pos

end Lengths

variable {env : Platform} (layout : Layout env.Sample)

def initial : Buffer env where
  signal := fun _ => env.zero
  correlation := fun _ => env.zero
  energy := fun i => if i < layout.historyLen then env.lowest else env.zeroFloat
  snrTags := List.replicate (1 + layout.numHistoryFrames + 1) env.invalidSnr
  numItems := layout.historyLen
  offsetCounter := 0

variable (b : Buffer env)

def full : Bool := b.numItems == layout.bufferLen

def numSymbolsInWindow : Nat := minusCapZero b.numItems layout.historyLen

def numSymbolsMissing : Nat := layout.bufferLen - b.numItems

def offsetStart : Nat := minusCapZero b.offsetCounter layout.historyLen

def offsetLastSymbol : Nat := b.offsetCounter + minusCapZero b.numItems (layout.historyLen + 1)

def localOffset (absOffset : Nat) : Nat :=
  minusCapZero (absOffset + layout.historyLen) b.offsetCounter

def signal (absPos : Nat) : env.Sample := b.signal (layout.localOffset b absPos)

def signalWindow (localPos : Nat) : env.Sample := b.signal (layout.historyLen + localPos)

def correlationWindow (localPos : Nat) : env.Sample :=
  b.correlation (layout.historyLen + localPos)

/-- The dot product of the ASM and the symbols at an index. -/
def dotProductAt (signal : Nat → env.Sample) (i : Nat) : env.Sample :=
  env.dotProduct ((List.range layout.asmLen).map fun j => signal (i + j))
    ((List.range layout.asmLen).map layout.asmConj)

/-- The loop of `read_signal` over the correlations from `start`. -/
def correlate (signal : Nat → env.Sample) (start count : Nat) (correlation : Nat → env.Sample) :
    Nat → env.Sample :=
  Memory.scatter (fun k => start + k) (fun k => layout.dotProductAt signal (start + k)) count
    correlation

/-- `read_signal` returns the buffer and the number of symbols it has taken. -/
def readSignal (input : List env.Sample) (snrEnd : env.Snr) : Buffer env × Nat :=
  let numUntilFull := layout.bufferLen - b.numItems
  let numCopy := if input.length < numUntilFull then input.length else numUntilFull
  let indxStart := b.numItems
  let indxStop := b.numItems + numCopy
  let signal := Memory.copy indxStart numCopy (fun i => input.getD i env.zero) b.signal
  let firstIndx := minusCapZero indxStart layout.asmLen
  let correlation := layout.correlate signal firstIndx
    (minusCapZero indxStop layout.asmLen - firstIndx) b.correlation
  let tagged := b.setSnrCurrentEnd snrEnd
  let interpolation : SnrInterpolation env.Snr :=
    { first := tagged.snrCurrentStart
      last := tagged.snrCurrentEnd
      offsetStart := b.offsetCounter
      blockLength := numCopy }
  let energy := Memory.copy indxStart numCopy
    (fun i => env.energyCorrection interpolation i (input.getD i env.zero)) b.energy
  ({ tagged with
      signal := signal
      correlation := correlation
      energy := energy
      numItems := indxStop }, numCopy)

/-- `advance` of a full buffer. -/
def advanced : Buffer env :=
  let rotated := { b with
    signal := Buffer.rotate layout.bufferLen layout.blockLen b.signal
    correlation :=
      Buffer.rotate (layout.bufferLen - layout.overlapLen) layout.blockLen b.correlation
    energy := Buffer.rotate layout.bufferLen layout.blockLen b.energy
    snrTags := b.snrTags.rotate 1 }
  { rotated.setSnrCurrentEnd env.invalidSnr with
    numItems := b.numItems - layout.blockLen
    offsetCounter := b.offsetCounter + layout.blockLen }

/-- `advance` raises an exception unless the buffer is full. -/
def advance : Option (Buffer env) := if layout.full b then some (layout.advanced b) else none

end Layout

/-- The arguments with which the block constructs its buffer. -/
def Config.layout (cfg : Config) (env : Platform) : Layout env.Sample where
  blockLen := cfg.blockLen
  asmLen := cfg.asmLen
  asmLen_pos := cfg.asmLen_pos
  asmConj := env.asmConj
  numHistoryFrames := cfg.framesBefore
  numHead := cfg.numHead

namespace Buffer

variable {env : Platform} (cfg : Config)

def initial : Buffer env := (cfg.layout env).initial

variable (b : Buffer env)

def full : Bool := (cfg.layout env).full b

def bufferCurrentEmpty : Bool := decide (b.numItems ≤ cfg.historyLen)

def numSymbolsInWindow : Nat := (cfg.layout env).numSymbolsInWindow b

def numSymbolsMissing : Nat := (cfg.layout env).numSymbolsMissing b

def offsetStart : Nat := (cfg.layout env).offsetStart b

def offsetLastSymbol : Nat := (cfg.layout env).offsetLastSymbol b

def localOffset (absOffset : Nat) : Nat := (cfg.layout env).localOffset b absOffset

def absoluteOffset (localIndex : Nat) : Nat :=
  minusWrap (b.offsetCounter + localIndex) cfg.historyLen

def readSignal (input : List env.Sample) (snrEnd : env.Snr) : Buffer env × Nat :=
  (cfg.layout env).readSignal b input snrEnd

def advance : Buffer env := (cfg.layout env).advanced b

@[simp] theorem initial_numItems : (initial cfg : Buffer env).numItems = cfg.historyLen := rfl

@[simp] theorem initial_offsetCounter : (initial cfg : Buffer env).offsetCounter = 0 := rfl

theorem full_eq : b.full cfg = (b.numItems == cfg.bufferLen) := rfl

theorem numSymbolsMissing_eq : b.numSymbolsMissing cfg = cfg.bufferLen - b.numItems := rfl

theorem offsetStart_eq : b.offsetStart cfg = minusCapZero b.offsetCounter cfg.historyLen := rfl

theorem offsetLastSymbol_eq : b.offsetLastSymbol cfg =
    b.offsetCounter + minusCapZero b.numItems (cfg.historyLen + 1) := rfl

theorem localOffset_eq (absOffset : Nat) : b.localOffset cfg absOffset =
    minusCapZero (absOffset + cfg.historyLen) b.offsetCounter := rfl

def signalAt (absPos : Nat) : env.Sample := b.signal (b.localOffset cfg absPos)

def correlationAt (absPos : Nat) : env.Sample := b.correlation (b.localOffset cfg absPos)

def energyAt (absPos : Nat) : env.Float := b.energy (b.localOffset cfg absPos)

/-- The pair of SNR tags around a position. -/
def snr (absPos : Nat) : SnrInterpolation env.Snr :=
  let localBlock := minusWrap (b.localOffset cfg absPos) cfg.numHead / cfg.blockLen
  let tagIndxStart :=
    if localBlock + 1 < b.snrTags.length then localBlock else b.snrTags.length - 2
  { first := b.snrTags.getD tagIndxStart env.invalidSnr
    last := b.snrTags.getD (tagIndxStart + 1) env.invalidSnr
    offsetStart := b.absoluteOffset cfg (cfg.numHead + tagIndxStart * cfg.blockLen)
    blockLength := cfg.blockLen }

end Buffer

end GrCcsds.FrameSync
