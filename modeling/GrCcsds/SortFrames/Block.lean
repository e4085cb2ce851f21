import GrCcsds.Utils

/-! # The frame sorting block

State and message handlers of `sort_frames`. Frames are kept in a ring of
`window` slots that is addressed relative to the newest frame number. A PDU is
seen through the two header entries the block reads; everything else it carries
is opaque. Assertions are compiled out of the default release build and do not
take part in the transitions.
-/

namespace GrCcsds.SortFrames

open Utils

/-- A PDU with the header values stored under the sort field and under the
score field of the block that receives it. -/
structure Pdu (Score Data : Type) where
  sortValue : Option UInt64
  scoreValue : Option Score
  data : Data
deriving DecidableEq, Repr

/-- A message as the input handler classifies it. -/
inductive Message (Score Data : Type) where
  | eof
  | notPair
  | headerNotDict
  | frame (pdu : Pdu Score Data)
deriving DecidableEq, Repr

/-- A message published on the output port. -/
inductive Output (Score Data : Type) where
  | pdu (pdu : Pdu Score Data)
  | eof
deriving DecidableEq, Repr

/-- The constant members of the block. -/
structure Config where
  window : Nat
  window_pos : 0 < window
  allowDuplicates : Bool
  hasScoreField : Bool
  sortAscending : Bool

structure FrameDuplicates (Score Data : Type) where
  frames : List (Pdu Score Data)
  bestIndex : Nat
  bestValue : Score
deriving DecidableEq, Repr

/-- The mutable members of the block and the messages it has published. -/
structure State (cfg : Config) (Score Data : Type) where
  currentFrame : Nat
  frameStorage : Fin cfg.window → FrameDuplicates Score Data
  storageOffset : Fin cfg.window
  stopped : Bool
  flushed : Bool
  out : List (Output Score Data)

variable {Score Data : Type} [Zero Score] [LT Score] [DecidableLT Score]

/-- The value-initialised storage entry. -/
def FrameDuplicates.empty : FrameDuplicates Score Data :=
  { frames := [], bestIndex := 0, bestValue := 0 }

def State.initial (cfg : Config) : State cfg Score Data where
  currentFrame := 0
  frameStorage := fun _ => .empty
  storageOffset := ⟨cfg.window - 1, Nat.sub_lt cfg.window_pos Nat.one_pos⟩
  stopped := false
  flushed := false
  out := []

variable {cfg : Config}

/-- The slot that `get_duplicates` addresses for a frame number. -/
def State.slot (s : State cfg Score Data) (frameNumber : Nat) : Fin cfg.window :=
  let diff := minusCapZero s.currentFrame frameNumber
  ⟨minusCapZero (cfg.window + s.storageOffset) diff % cfg.window,
    Nat.mod_lt _ cfg.window_pos⟩

def State.getDuplicates (s : State cfg Score Data) (frameNumber : Nat) :
    FrameDuplicates Score Data :=
  s.frameStorage (s.slot frameNumber)

/-- Assignment through the reference that `get_duplicates` returns. -/
def State.setDuplicates (s : State cfg Score Data) (frameNumber : Nat)
    (dups : FrameDuplicates Score Data) : State cfg Score Data :=
  { s with frameStorage := Function.update s.frameStorage (s.slot frameNumber) dups }

def getFrameNumber (pdu : Pdu Score Data) : Option Nat := pdu.sortValue.map UInt64.toNat

def getFrameScore (cfg : Config) (pdu : Pdu Score Data) : Option Score :=
  if cfg.hasScoreField then pdu.scoreValue else none

/-- `get_frame_score(...).value_or(0.0)` -/
def scoreOrZero (cfg : Config) (pdu : Pdu Score Data) : Score := (getFrameScore cfg pdu).getD 0

def State.sendFrame (s : State cfg Score Data) (frameNumber : Nat) : State cfg Score Data :=
  let dups := s.getDuplicates frameNumber
  { s.setDuplicates frameNumber { dups with frames := [] } with
    out := s.out ++ dups.frames.map .pdu }

def State.advanceStorage (s : State cfg Score Data) : State cfg Score Data :=
  let newOffset : Fin cfg.window :=
    ⟨(s.storageOffset + 1) % cfg.window, Nat.mod_lt _ cfg.window_pos⟩
  { s with
    frameStorage := Function.update s.frameStorage newOffset .empty
    storageOffset := newOffset }

/-- The body of the loop that moves the window by one frame number. -/
def State.advanceOnce (s : State cfg Score Data) : State cfg Score Data :=
  let sent := if s.currentFrame ≥ cfg.window then
      s.sendFrame (s.currentFrame - cfg.window)
    else s
  { sent.advanceStorage with currentFrame := s.currentFrame + 1 }

def State.advanceBy : Nat → State cfg Score Data → State cfg Score Data
  | 0, s => s
  | count + 1, s => State.advanceBy count s.advanceOnce

/-- The loop `while(d_current_frame < *frame_number)`; every iteration moves
the window by one. -/
def State.advanceTo (s : State cfg Score Data) (frameNumber : Nat) : State cfg Score Data :=
  s.advanceBy (frameNumber - s.currentFrame)

/-- Whether a duplicate displaces the best candidate of its slot. -/
def better (cfg : Config) (pdu : Pdu Score Data) (bestValue : Score) : Bool :=
  if cfg.hasScoreField then
    if cfg.sortAscending then decide (bestValue < scoreOrZero cfg pdu)
    else decide (scoreOrZero cfg pdu < bestValue)
  else cfg.sortAscending

/-- The effect of a PDU on the slot of its frame number. -/
def addDuplicate (cfg : Config) (dups : FrameDuplicates Score Data) (pdu : Pdu Score Data) :
    FrameDuplicates Score Data :=
  if dups.frames.isEmpty then
    { frames := dups.frames ++ [pdu], bestIndex := 0, bestValue := scoreOrZero cfg pdu }
  else if cfg.allowDuplicates then
    let frames := dups.frames ++ [pdu]
    let isBetter := better cfg pdu dups.bestValue
    { frames := frames
      bestIndex := if isBetter then frames.length - 1 else dups.bestIndex
      bestValue := if isBetter then scoreOrZero cfg pdu else dups.bestValue }
  else if better cfg pdu dups.bestValue then
    { frames := dups.frames.set 0 pdu, bestIndex := 0, bestValue := scoreOrZero cfg pdu }
  else dups

/-- `store_frame` for a message whose header is a dictionary. -/
def State.storePdu (s : State cfg Score Data) (pdu : Pdu Score Data) : State cfg Score Data :=
  match getFrameNumber pdu with
  | none => s
  | some frameNumber =>
    if (getFrameScore cfg pdu).isNone && cfg.hasScoreField then s
    else if (frameNumber + cfg.window) % size64 ≤ s.currentFrame then s
    else
      let advanced := s.advanceTo frameNumber
      advanced.setDuplicates frameNumber
        (addDuplicate cfg (advanced.getDuplicates frameNumber) pdu)

/-- The loop of `flush_frames` over an unsigned 64-bit counter. Without fuel
the loop has not ended. -/
def State.flushLoop : Nat → Nat → State cfg Score Data → Option (State cfg Score Data)
  | 0, _, _ => none
  | fuel + 1, i, s =>
    if i ≤ s.currentFrame then State.flushLoop fuel ((i + 1) % size64) (s.sendFrame i)
    else some s

def State.flushFrames (fuel : Nat) (s : State cfg Score Data) :
    Option (State cfg Score Data) :=
  (s.flushLoop fuel (minusCapZero ((s.currentFrame + 1) % size64) cfg.window)).map
    fun s => { s with flushed := true }

def State.storeFrame (fuel : Nat) (s : State cfg Score Data) :
    Message Score Data → Option (State cfg Score Data)
  | .eof => (s.flushFrames fuel).map
      fun s => { s with out := s.out ++ [.eof], stopped := true }
  | .notPair => some s
  | .headerNotDict => some s
  | .frame pdu => some (s.storePdu pdu)

def State.stop (s : State cfg Score Data) : State cfg Score Data := { s with stopped := true }

/-- The work function; its Boolean result is true for `WORK_DONE`. -/
def State.work (fuel : Nat) (s : State cfg Score Data) :
    Option (State cfg Score Data × Bool) :=
  (if s.stopped && !s.flushed then s.flushFrames fuel else some s).map
    fun s => (s, s.stopped)

/-- Deliver messages to the input handler one after the other. -/
def State.deliver (fuel : Nat) : State cfg Score Data → List (Message Score Data) →
    Option (State cfg Score Data)
  | s, [] => some s
  | s, message :: rest => (s.storeFrame fuel message).bind fun s => s.deliver fuel rest

/-- The two ways in which a stream of frames ends. -/
inductive Ending where
  | eof
  | stopAndWork
deriving DecidableEq, Repr

def State.finish (fuel : Nat) (s : State cfg Score Data) :
    Ending → Option (State cfg Score Data)
  | .eof => s.storeFrame fuel .eof
  | .stopAndWork => (s.stop.work fuel).map Prod.fst

/-- A complete run of a new block: all PDUs, then the end of the stream. -/
def run (cfg : Config) (fuel : Nat) (pdus : List (Pdu Score Data)) (ending : Ending) :
    Option (State cfg Score Data) :=
  ((State.initial cfg).deliver fuel (pdus.map .frame)).bind fun s => s.finish fuel ending

/-- The PDUs published before the end-of-file message. -/
def beforeEof : List (Output Score Data) → List (Pdu Score Data)
  | [] => []
  | .eof :: _ => []
  | .pdu p :: rest => p :: beforeEof rest

def State.published (s : State cfg Score Data) : List (Pdu Score Data) := beforeEof s.out

omit [LT Score] [DecidableLT Score] in
/-- The while loop tests its condition before every iteration. -/
theorem State.advanceTo_eq (s : State cfg Score Data) (frameNumber : Nat) :
    s.advanceTo frameNumber =
      if s.currentFrame < frameNumber then s.advanceOnce.advanceTo frameNumber else s := by
  unfold State.advanceTo
  split
  next hlt =>
    obtain ⟨count, hcount⟩ : ∃ count, frameNumber - s.currentFrame = count + 1 :=
      ⟨frameNumber - s.currentFrame - 1, by omega⟩
    have hnext : frameNumber - s.advanceOnce.currentFrame = count := by
      simp only [State.advanceOnce]
      omega
    rw [hcount, hnext]
    rfl
  next hge =>
    have hzero : frameNumber - s.currentFrame = 0 := by omega
    rw [hzero]
    rfl

end GrCcsds.SortFrames
