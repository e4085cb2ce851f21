import GrCcsds.Ambiguity.Constellation
import GrCcsds.Ambiguity.Tags
import GrCcsds.Foundation.Memory
import GrCcsds.Foundation.Transition

/-! # The ambiguity resolver

The search for an ASM in all ambiguities, the states of `general_work` and its
loop as a step function. A label is what the scheduler decides: how many items
of the stream a call sees. Lengths and counters are natural numbers; the
differences of the source never wrap. Debug output is left out.
-/

namespace GrCcsds.Ambiguity

open Utils Foundation

variable {R : Type}

/-- The constants of the block. `asm` has an entry 1 or -1 for every bit of the ASM. -/
structure Config (R : Type) where
  ldM : Nat
  ldM_pos : 0 < ldM
  ldM_le : ldM ≤ 8
  asm : Nat → R
  asmLenBits : Nat
  asmLenBits_pos : 0 < asmLenBits
  threshold : Nat
  correlationThreshold : R
  frameLenBits : Nat
  le_frameLenBits : 8 ≤ frameLenBits
  numTailSyms : Nat

namespace Config

variable (cfg : Config R)

def order : Nat := 2 ^ cfg.ldM

def lower (n : Nat) : Nat := getLowerMul cfg.ldM n

def upper (n : Nat) : Nat := getUpperMul cfg.ldM n

/-- The length of a message in bits. -/
def messageLen : Nat := cfg.frameLenBits + cfg.numTailSyms

theorem messageLen_pos : 0 < cfg.messageLen :=
  Nat.add_pos_left (Nat.lt_of_lt_of_le (by decide) cfg.le_frameLenBits) _

def searchLenMin : Nat := cfg.upper (cfg.asmLenBits + cfg.ldM)

def searchLenMax : Nat := cfg.upper (cfg.messageLen + 2 * cfg.asmLenBits - 1)

/-- The distance between the frames of one lock. -/
def period : Nat := cfg.messageLen + cfg.asmLenBits

end Config

inductive State where
  | search
  | lock
deriving DecidableEq, Repr

/-- The mutable members of the block. -/
structure Resolver (R : Type) where
  state : State
  count : Nat
  offsetBits : Nat
  lockedOnStream : Nat
  msgBuffer : Nat → R
  msgBufferCount : Nat
  msgBufferFill : Bool
  frameCount : Nat
  correlation : R
  tags : TagStore R

structure Message (R : Type) where
  header : Header R
  bits : List R

/-- What happens to the lock. An entry into the lock records the position behind the
ASM that has been found. -/
inductive Event (R : Type) where
  | locked (position ambiguity frameCount : Nat) (correlation : R)
  | message (message : Message R)
  | lost

section Search

variable [Arithmetic R]

/-- `std::abs` -/
def magnitude (x : R) : R := if x < 0 then -x else x

variable (cfg : Config R)

/-- `check_for_ASM`: the normalised correlation of the bits at an offset with the ASM. -/
def checkForAsm (input : Nat → R) (offset : Nat) : R :=
  let correlation := (List.range cfg.asmLenBits).foldl
    (fun sum i => sum + cfg.asm i * input (i + offset)) 0
  let magnitude := (List.range cfg.asmLenBits).foldl
    (fun sum i => sum + magnitude (input (i + offset))) 0
  correlation / pickLarger magnitude (cfg.asmLenBits : R)

/-- The loop of `search_for_ASM` over the remaining offsets, with the maximum and its offset. -/
def searchOffsets (input : Nat → R) : List Nat → R × Nat → R × Nat
  | [], best => best
  | i :: rest, best =>
    let corr := checkForAsm cfg input i
    if best.1 < corr then
      if 1 ≤ corr then (corr, i) else searchOffsets input rest (corr, i)
    else searchOffsets input rest best

/-- `search_for_ASM` -/
def searchForAsm (input : Nat → R) (numIn : Nat) : R × Nat :=
  searchOffsets cfg input (List.range (numIn - cfg.asmLenBits + 1)) (-1, 0)

/-- The best match of a search over the ambiguities. -/
structure Best (R : Type) where
  correlation : R
  ambiguity : Nat
  offsetBits : Nat

/-- The loop over the remaining ambiguities. -/
def searchStreams (input : Nat → R) (searchLen : Nat) : List Nat → Best R → Best R
  | [], best => best
  | i :: rest, best =>
    let found := searchForAsm cfg (convertAmbiguity cfg.ldM input searchLen i) searchLen
    if best.correlation < found.1 then
      let better : Best R := { correlation := found.1, ambiguity := i, offsetBits := found.2 }
      if 1 ≤ found.1 then better else searchStreams input searchLen rest better
    else searchStreams input searchLen rest best

end Search

section Loop

variable [Arithmetic R] (cfg : Config R)

/-- The number of bits that the next iteration in lock needs. -/
def Resolver.checkLen (s : Resolver R) : Nat :=
  cfg.upper (if s.msgBufferFill then 1 else cfg.asmLenBits + s.offsetBits)

/-- Check for the next ASM at the expected position. The input starts with the first
symbol that has not been consumed. The result is the number of consumed bits, or `none`
if the lock is lost. -/
def checkStep (input : Nat → R) (s : Resolver R) : Resolver R × Option Nat :=
  let inSyms := convertAmbiguity cfg.ldM input (s.checkLen cfg) s.lockedOnStream
  let correlation := checkForAsm cfg inSyms s.offsetBits
  let s := { s with frameCount := s.frameCount + 1 }
  let consumed := cfg.lower (cfg.asmLenBits + s.offsetBits)
  let offsetBits := (cfg.asmLenBits + s.offsetBits) % cfg.ldM
  if cfg.correlationThreshold < correlation then
    ({ s with
        count := min (s.count + 1) cfg.threshold
        offsetBits := offsetBits
        msgBufferFill := true }, some consumed)
  else if s.count > 1 then
    ({ s with count := s.count - 1, offsetBits := offsetBits, msgBufferFill := true },
      some consumed)
  else ({ s with state := .search, count := 0, offsetBits := 0 }, none)

/-- The number of bits that an iteration puts into the message buffer. -/
def Resolver.toBuffer (available : Nat) (s : Resolver R) : Nat :=
  pickSmaller (cfg.lower available)
    (cfg.upper (cfg.messageLen - s.msgBufferCount + s.offsetBits))

def Resolver.toCopy (available : Nat) (s : Resolver R) : Nat :=
  min (cfg.messageLen - s.msgBufferCount) (s.toBuffer cfg available - s.offsetBits)

/-- Fill the message buffer with what is available. -/
def fillBuffer (input : Nat → R) (available : Nat) (s : Resolver R) : Resolver R × Nat :=
  let inSyms := convertAmbiguity cfg.ldM input (s.toBuffer cfg available) s.lockedOnStream
  let msgBuffer := if s.msgBufferCount = 0 then fun _ => 0 else s.msgBuffer
  let toCopy := s.toCopy cfg available
  ({ s with
      msgBuffer := Memory.copy s.msgBufferCount toCopy (fun i => inSyms (i + s.offsetBits)) msgBuffer
      msgBufferCount := s.msgBufferCount + toCopy
      offsetBits := (toCopy + s.offsetBits) % cfg.ldM },
    cfg.lower (toCopy + s.offsetBits))

/-- The message of a full buffer. `position` is the number of bits up to the end of the
frame. -/
def sendMessage (tags : List (Tag R)) (nitemsRead position : Nat) (s : Resolver R) :
    Option (Resolver R × Message R) :=
  let start := position - cfg.messageLen
  match s.tags.extractTags tags nitemsRead start cfg.messageLen with
  | none => none
  | some (header, store) =>
    let header := header
      |>.add "frame_number" (.uint64 s.frameCount)
      |>.add "frame_offset" (.uint64 start)
      |>.add "frame_correlation" (.real s.correlation)
    some ({ s with tags := store, msgBufferCount := 0, msgBufferFill := false },
      { header := header, bits := (List.range cfg.messageLen).map s.msgBuffer })

end Loop

/-- Where the block is between two iterations of the loop. -/
inductive Point where
  | idle
  | loop (numInput numConsumed : Nat)
  | raised
deriving DecidableEq, Repr

inductive Label where
  | work (numInput : Nat)
  | proceed
deriving DecidableEq, Repr

/-- The block in a run. The log only records the past. -/
structure Machine (R : Type) where
  point : Point
  resolver : Resolver R
  nitemsRead : Nat
  log : List (Event R)

namespace Machine

variable [Arithmetic R]

def start : Machine R where
  point := .idle
  resolver :=
    { state := .search
      count := 0
      offsetBits := 0
      lockedOnStream := 0
      msgBuffer := fun _ => 0
      msgBufferCount := 0
      msgBufferFill := false
      frameCount := 0
      correlation := 0
      tags := .initial }
  nitemsRead := 0
  log := []

variable (cfg : Config R) (stream : Nat → R) (tags : List (Tag R))

/-- The end of a call of `general_work`. -/
def finish (m : Machine R) (numConsumed : Nat) : Machine R :=
  { m with
    point := .idle
    resolver :=
      { m.resolver with
        tags := m.resolver.tags.updateTags tags m.nitemsRead (m.nitemsRead + numConsumed) }
    nitemsRead := m.nitemsRead + numConsumed }

/-- An iteration in lock with enough input. -/
def lockStep (m : Machine R) (numInput numConsumed : Nat) : Machine R :=
  let input := fun i => stream (m.nitemsRead + numConsumed + i)
  if m.resolver.msgBufferFill then
    let (s, consumed) := fillBuffer cfg input (numInput - numConsumed) m.resolver
    let numConsumed := numConsumed + consumed
    if s.msgBufferCount ≥ cfg.messageLen then
      match sendMessage cfg tags m.nitemsRead (m.nitemsRead + numConsumed + s.offsetBits) s with
      | none => { m with point := .raised, resolver := s }
      | some (s, message) =>
        { m with
          point := .loop numInput numConsumed
          resolver := s
          log := m.log ++ [.message message] }
    else { m with point := .loop numInput numConsumed, resolver := s }
  else
    match checkStep cfg input m.resolver with
    | (s, some consumed) =>
      { m with point := .loop numInput (numConsumed + consumed), resolver := s }
    | (s, none) =>
      { m with point := .loop numInput numConsumed, resolver := s, log := m.log ++ [.lost] }

/-- An iteration in search with enough input. -/
def searchStep (m : Machine R) (numInput numConsumed : Nat) : Machine R :=
  let input := fun i => stream (m.nitemsRead + numConsumed + i)
  let searchLen := cfg.lower (min (numInput - numConsumed) cfg.searchLenMax)
  let best := searchStreams cfg input searchLen (List.range cfg.order)
    { correlation := -1, ambiguity := 0, offsetBits := m.resolver.offsetBits }
  if cfg.correlationThreshold < best.correlation then
    { m with
      point := .loop numInput (numConsumed + cfg.lower (best.offsetBits + cfg.asmLenBits))
      resolver :=
        { m.resolver with
          state := .lock
          count := 0
          lockedOnStream := best.ambiguity
          correlation := best.correlation
          msgBufferFill := true
          frameCount := m.resolver.frameCount + 1
          offsetBits := (best.offsetBits + cfg.asmLenBits) % cfg.ldM }
      log := m.log ++ [.locked
        (m.nitemsRead + numConsumed + best.offsetBits + cfg.asmLenBits) best.ambiguity
        (m.resolver.frameCount + 1) best.correlation] }
  else
    { m with
      point := .loop numInput
        (numConsumed + cfg.lower (searchLen - (cfg.asmLenBits - 1)))
      resolver := { m.resolver with offsetBits := 0 } }

/-- One step: the begin of a call or an iteration of its loop. -/
def step (m : Machine R) (label : Label) : Option (Machine R) :=
  match m.point, label with
  | .idle, .work numInput => some { m with point := .loop numInput 0 }
  | .loop numInput numConsumed, .proceed =>
    match m.resolver.state with
    | .search =>
      if numInput - numConsumed < cfg.searchLenMin then some (m.finish tags numConsumed)
      else some (m.searchStep cfg stream numInput numConsumed)
    | .lock =>
      if numInput - numConsumed < m.resolver.checkLen cfg then some (m.finish tags numConsumed)
      else some (m.lockStep cfg stream tags numInput numConsumed)
  | _, _ => none

end Machine

end GrCcsds.Ambiguity
