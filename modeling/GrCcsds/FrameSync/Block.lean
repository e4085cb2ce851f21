import GrCcsds.FrameSync.Buffer

/-! # The frame synchronisation block

The copy tasks and the functions of `frame_sync_impl`, and the control flow of
its constructor, `work` and `stop` as a step function. A label is what the
scheduler or the search decides: the symbols of the next call, the position and
the ambiguity that `findMaximumInBuffer` returns, or the end of the stream.
-/

namespace GrCcsds.FrameSync

open Utils Foundation

structure AsmPosition where
  offset : Nat
  ambiguity : Nat
  sequence : Nat
deriving DecidableEq, Repr

def sequenceUnused : Nat := 0

/-- `asm_position::matches` -/
def AsmPosition.matches (first second : AsmPosition) : Bool :=
  second.offset == first.offset && second.ambiguity == first.ambiguity

structure AsmHeader (env : Platform) where
  position : AsmPosition
  score : env.Float
  correlation : env.Float
  primary : Bool
  snr : SnrInterpolation env.Snr

/-- `frame_copy_task_t` -/
structure Task (env : Platform) where
  numSymbolsTotal : Nat
  ambCorrection : env.Sample
  asmPos : AsmPosition
  copyFrom : Nat
  primary : Bool
  header : Dict env.Float
  msgBuffer : Nat → env.Float
  numSymbolsCopied : Nat
  headerComputed : Bool
  messageSendOut : Bool

namespace Task

variable {env : Platform}

def dataComplete (t : Task env) : Bool := t.numSymbolsCopied == t.numSymbolsTotal

def numRemaining (t : Task env) : Nat := minusCapZero t.numSymbolsTotal t.numSymbolsCopied

/-- The soft bits of `generate_pmt_to_send`. -/
def data (t : Task env) : List env.Float :=
  (List.range (t.numSymbolsTotal * env.bitsPerSymbol)).map t.msgBuffer

end Task

/-- A message on the output port. A frame stands for the pair of the header and
the data of its task. -/
inductive Output (env : Platform) where
  | frame (task : Task env)
  | eof

/-- The mutable members of the block and the messages it has published. -/
structure Block (env : Platform) where
  buffer : Buffer env
  snrEst : env.Estimator
  frameQueue : List (Task env)
  sequenceNumber : Nat
  out : List (Output env)

section Functions

variable {env : Platform} (cfg : Config)

/-- `asm_header::generate_header` -/
def AsmHeader.generateHeader (info : AsmHeader env) (bitsPerSymbol blockLenSymbols : Nat)
    (oldHeader : Dict env.Float) : Dict env.Float :=
  let frameOffset := info.position.offset * bitsPerSymbol
  let frameNumber := frameOffset / (blockLenSymbols * bitsPerSymbol)
  let header := oldHeader
    |>.add "asm_offset" (.uint64 frameOffset)
    |>.add "asm_number" (.uint64 frameNumber)
    |>.add "asm_ambiguity" (.uint64 info.position.ambiguity)
    |>.add "asm_score" (.float info.score)
    |>.add "asm_correlation" (.float info.correlation)
    |>.add "asm_primary" (.bool info.primary)
    |>.add "asm_snr_db" (.float (env.snrDbStart info.snr))
    |>.add "asm_Es_start" (.float (env.esStart info.snr))
    |>.add "asm_Es_slope" (.float (env.esSlope info.snr))
    |>.add "asm_N0_start" (.float (env.n0Start info.snr))
    |>.add "asm_N0_slope" (.float (env.n0Slope info.snr))
  if info.position.sequence != sequenceUnused then
    header.add "asm_sequence" (.uint64 info.position.sequence)
  else header

/-- `computeSingleScore` -/
def computeSingleScore (b : Buffer env) (asmPos : AsmPosition) (primary : Bool) :
    AsmHeader env :=
  let ambCorrection := env.conj (env.getAmbiguitySymbol asmPos.ambiguity)
  let energyCorrection := (List.range cfg.asmLen).foldl
    (fun sum j => env.addFloat sum (b.energyAt cfg (asmPos.offset + j))) env.zeroFloat
  let corrected := env.mul (b.correlationAt cfg asmPos.offset) ambCorrection
  let scores := env.scores corrected energyCorrection
  { position := asmPos
    score := scores.1
    correlation := scores.2
    primary := primary
    snr := b.snr cfg asmPos.offset }

/-- The task that `queueFrameOutput` creates. -/
def newTask (info : AsmPosition) (primary : Bool) : Task env where
  numSymbolsTotal := cfg.outputLen
  ambCorrection := env.normalise (env.conj (env.getAmbiguitySymbol info.ambiguity))
  asmPos := info
  copyFrom := addSignedToUnsigned (info.offset + cfg.asmLen) (-cfg.head)
  primary := primary
  header := .empty
  msgBuffer := fun _ => env.zeroFloat
  numSymbolsCopied := 0
  headerComputed := false
  messageSendOut := false

/-- The number of elements of the message of a frame. -/
def messageLen (env : Platform) (cfg : Config) : Nat :=
  cfg.outputLen * env.bitsPerSymbol % size64

/-- The largest number of elements of a `std::vector<float>`. -/
def maxVectorLen : Nat := 2 ^ 61 - 1

/-- `queueFrameOutput`. It throws for a frame from before the start of the stream, and so does the
creation of a task whose message does not fit a vector. -/
def queueFrameOutput (queue : List (Task env)) (info : AsmPosition) (primary : Bool) :
    Option (List (Task env)) :=
  if info.offset < cfg.numHead then none
  else if maxVectorLen < messageLen env cfg then none
  else if queue.any fun t => info.matches t.asmPos then
    if primary then
      some (queue.eraseP (fun t => info.matches t.asmPos) ++ [newTask cfg info primary])
    else some queue
  else some (queue ++ [newTask cfg info primary])

/-- Queue secondary frames one by one. On an exception the frames before stay
in the queue. -/
def queueSecondary : List AsmPosition → List (Task env) → Except (List (Task env)) (List (Task env))
  | [], queue => .ok queue
  | info :: rest, queue =>
    match queueFrameOutput cfg queue info false with
    | none => .error queue
    | some queue => queueSecondary rest queue

/-- The positions of the secondary frames of a primary one. -/
def secondaryPositions (frame : AsmPosition) : List AsmPosition :=
  ((List.range' 1 cfg.framesBefore).filterMap fun i =>
    if frame.offset < i * cfg.blockLen then none
    else some { frame with offset := frame.offset - i * cfg.blockLen }) ++
  (List.range' 1 cfg.framesAfter).map fun i =>
    { frame with offset := frame.offset + i * cfg.blockLen }

/-- `processBuffer` for the result of the search. The exception leaves the
block as it is when it is thrown. -/
def processBuffer (b : Block env) (index ambiguity : Nat) : Except (Block env) (Block env) :=
  let sequence := b.sequenceNumber + 1
  let frame : AsmPosition :=
    { offset := b.buffer.offset + index, ambiguity := ambiguity, sequence := sequence }
  let b := { b with sequenceNumber := sequence }
  match queueFrameOutput cfg b.frameQueue frame true with
  | none => .error b
  | some queue =>
    match queueSecondary cfg (secondaryPositions cfg frame) queue with
    | .error queue => .error { b with frameQueue := queue }
    | .ok queue => .ok { b with frameQueue := queue }

/-- Compute the header of a task as soon as its ASM is in the buffer. -/
def startFrame (buffer : Buffer env) (t : Task env) : Task env :=
  let availFrom := buffer.offsetStart cfg
  let availUntil := buffer.offsetLastSymbol cfg
  let asmAvailable := decide (availFrom ≤ t.asmPos.offset) &&
    decide (availUntil ≥ t.asmPos.offset + cfg.asmLen)
  if !t.headerComputed && asmAvailable then
    let frameMeta := computeSingleScore cfg buffer t.asmPos t.primary
    { t with
      header := (frameMeta.generateHeader env.bitsPerSymbol cfg.blockLen t.header).update
        env.extraTags
      headerComputed := true }
  else t

/-- Copy the soft decisions of the next symbols into the message. -/
def copySymbols (buffer : Buffer env) (toCopy : Nat) (t : Task env) : Task env :=
  { t with
    msgBuffer := Memory.writeAll (fun i => (t.numSymbolsCopied + i) * env.bitsPerSymbol)
      (fun i => env.softDecisionMaker
        (env.mul (buffer.signalAt cfg (t.copyFrom + i)) t.ambCorrection)) toCopy t.msgBuffer
    copyFrom := t.copyFrom + toCopy
    numSymbolsCopied := t.numSymbolsCopied + toCopy }

/-- Mark a frame with all its data as complete. -/
def completeFrame (t : Task env) : Task env :=
  if t.dataComplete then
    let header := t.header
      |>.add "frame_complete" (.bool true)
      |>.add "frame_payload_offset" (.long (-(cfg.head * env.bitsPerSymbol)))
    { t with header := header.add "frame_number" ((header "asm_number").getD .nil) }
  else t

/-- Whether the next symbol of interest of a task is in the buffer. -/
def Task.inRange (buffer : Buffer env) (t : Task env) : Bool :=
  let firstSampleOfInterest :=
    if t.headerComputed then t.copyFrom else pickSmaller t.asmPos.offset t.copyFrom
  decide (firstSampleOfInterest ≥ buffer.offsetStart cfg) &&
    decide (firstSampleOfInterest ≤ buffer.offsetLastSymbol cfg)

/-- The body of the first loop of `processFrameQueue`. -/
def serveTask (buffer : Buffer env) (t : Task env) : Task env :=
  if t.dataComplete then t
  else if t.inRange cfg buffer then
    let numAvail := minusCapZero (buffer.offsetLastSymbol cfg + 1) t.copyFrom
    let started := startFrame cfg buffer t
    let toCopy := pickSmaller started.numRemaining numAvail
    if toCopy = 0 then started
    else completeFrame cfg (copySymbols cfg buffer toCopy started)
  else completeFrame cfg t

/-- Frames below this offset can no longer be generated. -/
def sendThreshold (buffer : Buffer env) : Nat :=
  minusCapZero buffer.offset (cfg.framesBefore * cfg.blockLen)

/-- Whether `processFrameQueue` sends out a task. -/
def Task.isReady (buffer : Buffer env) (t : Task env) : Bool :=
  t.dataComplete && !t.messageSendOut && decide (t.asmPos.offset < sendThreshold cfg buffer)

/-- `generate_pmt_to_send` marks the task. -/
def Task.sent (t : Task env) : Task env := { t with messageSendOut := true }

/-- `processFrameQueue` -/
def processFrameQueue (b : Block env) : Block env :=
  let served := b.frameQueue.map (serveTask cfg b.buffer)
  let marked := served.map fun t => if t.isReady cfg b.buffer then t.sent else t
  { b with
    frameQueue := marked.filter fun t => !t.messageSendOut
    out := b.out ++ (served.filter fun t => t.isReady cfg b.buffer).map fun t => .frame t.sent }

/-- One iteration of the loop of `work` up to the test for a full buffer. It
returns how many of the remaining symbols have been read. -/
def readChunk (b : Block env) (rest : List env.Sample) : Block env × Nat :=
  let numCopy := pickSmaller rest.length (b.buffer.numSymbolsMissing cfg)
  let est := env.updateEstimator b.snrEst (rest.take numCopy)
  let (buffer, numBuffered) := b.buffer.readSignal cfg (rest.take numCopy) (env.getSnr est)
  ({ b with buffer := buffer, snrEst := est }, numBuffered)

/-- The zeros that `stop` appends so that the last ASMs can be searched. -/
def fillOverlap (b : Block env) : Block env :=
  { b with
    buffer := (b.buffer.readSignal cfg (List.replicate cfg.overlapLen env.zero)
      (env.getSnr b.snrEst)).1 }

/-- A queued frame as `stop` flushes it, unless it is empty. -/
def flushTask (t : Task env) : Option (Task env) :=
  if t.messageSendOut then none
  else if t.numSymbolsCopied = 0 then none
  else if t.numRemaining > 0 then
    some ({ t with header := t.header.add "frame_complete" (.bool false) } : Task env).sent
  else some t.sent

/-- The end of `stop`: flush the unfinished frames and signal the end. -/
def flushFrames (b : Block env) : Block env :=
  { b with
    frameQueue := b.frameQueue.map fun t => (flushTask t).getD t
    out := b.out ++ (b.frameQueue.filterMap flushTask).map .frame ++ [.eof] }

def Block.initial : Block env where
  buffer := .initial cfg
  snrEst := env.initialEstimator
  frameQueue := []
  sequenceNumber := 0
  out := []

/-- The constructor, unless it throws for one of the additional positions. -/
def construct (additional : List AsmPosition) : Option (Block env) :=
  match queueSecondary cfg additional [] with
  | .error _ => none
  | .ok queue => some { Block.initial cfg with frameQueue := queue }

end Functions

/-- Where the block is between two steps. In a call of `work` the symbols that
have not been read yet are part of it. -/
inductive Point (Sample : Type) where
  | idle
  | loop (rest : List Sample)
  | search (rest : List Sample)
  | serve (rest : List Sample)
  | advance (rest : List Sample)
  | finish
  | stopSearch (maxItems : Nat)
  | stopServe
  | flush
  | stopped
  | workRaised
  | stopRaised
deriving DecidableEq, Repr

inductive Label (Sample : Type) where
  | work (input : List Sample)
  | found (index ambiguity : Nat)
  | stop
  | proceed
deriving DecidableEq, Repr

/-- The block in a run. Two components only record the past: the symbols that
`work` has read, and the primary frames that have been queued. -/
structure Machine (env : Platform) where
  point : Point env.Sample
  block : Block env
  received : List env.Sample
  primaries : List AsmPosition

namespace Machine

variable {env : Platform} (cfg : Config)

def start (b : Block env) : Machine env :=
  { point := .idle, block := b, received := [], primaries := [] }

/-- Process the result of a search. -/
def search (m : Machine env) (index ambiguity : Nat) (success failure : Point env.Sample) :
    Machine env :=
  match processBuffer cfg m.block index ambiguity with
  | .error b => { m with point := failure, block := b }
  | .ok b =>
    { m with
      point := success
      block := b
      primaries := m.primaries ++ [{ offset := m.block.buffer.offset + index
                                     ambiguity := ambiguity
                                     sequence := b.sequenceNumber }] }

/-- The loop of `work` while symbols are left. -/
def readNext (m : Machine env) (rest : List env.Sample) : Machine env :=
  let (block, numBuffered) := readChunk cfg m.block rest
  let rest' := rest.drop numBuffered
  { m with
    point := if block.buffer.full cfg then .search rest' else .loop rest'
    block := block
    received := m.received ++ rest.take numBuffered }

/-- The beginning of `stop`. -/
def beginStop (m : Machine env) : Machine env :=
  if m.block.buffer.bufferCurrentEmpty cfg then { m with point := .stopServe }
  else
    { m with
      point := .stopSearch
        (pickSmaller (m.block.buffer.numSymbolsInWindow cfg) cfg.blockLen)
      block := fillOverlap cfg m.block }

/-- One step. After an exception in `work` the scheduler still calls `stop`. -/
def step (m : Machine env) (label : Label env.Sample) : Option (Machine env) :=
  match m.point, label with
  | .idle, .work input => some { m with point := .loop input }
  | .loop [], .proceed => some { m with point := .finish }
  | .loop (x :: xs), .proceed => some (m.readNext cfg (x :: xs))
  | .search rest, .found index ambiguity =>
    if index < cfg.blockLen then some (m.search cfg index ambiguity (.serve rest) .workRaised)
    else none
  | .serve rest, .proceed =>
    some { m with point := .advance rest, block := processFrameQueue cfg m.block }
  | .advance rest, .proceed =>
    some { m with
      point := .loop rest
      block := { m.block with buffer := m.block.buffer.advance cfg } }
  | .finish, .proceed => some { m with point := .idle, block := processFrameQueue cfg m.block }
  | .idle, .stop => some (m.beginStop cfg)
  | .workRaised, .stop => some (m.beginStop cfg)
  | .stopSearch maxItems, .found index ambiguity =>
    if index < maxItems then some (m.search cfg index ambiguity .stopServe .stopRaised)
    else none
  | .stopServe, .proceed =>
    some { m with point := .flush, block := processFrameQueue cfg m.block }
  | .flush, .proceed => some { m with point := .stopped, block := flushFrames m.block }
  | _, _ => none

end Machine

/-- A call of `work` with four symbols, with an inverted ASM at the start. -/
def shortRun : List (Label realPlatform.Sample) :=
  [.work [-1, -1, 5, 7], .proceed, .found 0 1, .proceed, .proceed, .proceed, .proceed]

end GrCcsds.FrameSync
