import GrCcsds.Ambiguity.Resolver
import Mathlib.Data.List.Basic

/-! # The frames of a lock

Once an ASM has been found, the stream determines what happens until the lock is
lost: every message is a frame at its expected position, and the checks of the
expected ASMs decide when the lock ends. The calls that the stream arrives in
only decide how far the block has come.
-/

namespace GrCcsds.Ambiguity

open Utils Foundation

variable {R : Type}

section Specification

variable [Arithmetic R] (cfg : Config R) (stream : Nat → R)

/-- The stream without an ambiguity. -/
def converted (ambiguity : Nat) : Nat → R := convertBit cfg.ldM stream ambiguity

/-- The ASM before a position has a correlation. -/
def AsmBefore (position ambiguity : Nat) (correlation : R) : Prop :=
  cfg.asmLenBits ≤ position ∧
    checkForAsm cfg (converted cfg stream ambiguity) (position - cfg.asmLenBits) = correlation

/-- The entries of a header that do not come from tags. -/
def frameHeader (number position : Nat) (correlation : R) : Header R :=
  Header.empty
    |>.add "frame_number" (.uint64 number)
    |>.add "frame_offset" (.uint64 position)
    |>.add "frame_correlation" (.real correlation)

/-- A lock and the number of messages since it has begun. -/
structure Lock (R : Type) where
  position : Nat
  ambiguity : Nat
  frameCount : Nat
  correlation : R
  frames : Nat

/-- The position of the frame after the messages of a lock. -/
def Lock.next (lock : Lock R) : Nat := lock.position + lock.frames * cfg.period

/-- The confidence in a lock after a number of checks, unless it has been lost. -/
def confidence (position ambiguity : Nat) : Nat → Option Nat
  | 0 => some 0
  | n + 1 => (confidence position ambiguity n).bind fun count =>
    if cfg.correlationThreshold < checkForAsm cfg (converted cfg stream ambiguity)
        (position + n * cfg.period + cfg.messageLen) then
      some (min (count + 1) cfg.threshold)
    else if count > 1 then some (count - 1)
    else none

/-- A message is the frame at a position. All other entries of its header come from tags. -/
structure IsFrame (tags : List (Tag R)) (position ambiguity number : Nat) (correlation : R)
    (message : Message R) : Prop where
  bits : message.bits =
    (List.range cfg.messageLen).map fun i => converted cfg stream ambiguity (position + i)
  frameOffset : message.header "frame_offset" = some (.uint64 position)
  frameNumber : message.header "frame_number" = some (.uint64 number)
  frameCorrelation : message.header "frame_correlation" = some (.real correlation)
  untagged : ∀ key, (∀ tag ∈ tags, tag.key ≠ key) →
    message.header key = frameHeader number position correlation key

end Specification

/-- The lock after an event. -/
def Event.track : Option (Lock R) → Event R → Option (Lock R)
  | _, .locked position ambiguity frameCount correlation =>
    some { position := position, ambiguity := ambiguity, frameCount := frameCount,
           correlation := correlation, frames := 0 }
  | lock, .message _ => lock.map fun lock => { lock with frames := lock.frames + 1 }
  | _, .lost => none

/-- The lock at the end of a log. -/
def currentLock (log : List (Event R)) : Option (Lock R) := log.foldl Event.track none

@[simp] theorem currentLock_append (log : List (Event R)) (event : Event R) :
    currentLock (log ++ [event]) = Event.track (currentLock log) event := by
  simp [currentLock, List.foldl_append]

theorem foldl_track_messages (lock : Lock R) (messages : List (Message R)) :
    (messages.map Event.message).foldl Event.track (some lock) =
      some { lock with frames := lock.frames + messages.length } := by
  induction messages generalizing lock with
  | nil => rfl
  | cons message rest ih =>
      rw [List.map_cons, List.foldl_cons, Event.track, Option.map_some, ih]
      simp [Nat.add_assoc, Nat.add_comm 1]

section Log

variable [Arithmetic R] (cfg : Config R) (stream : Nat → R) (tags : List (Tag R))

/-- What the stream allows to happen after the events of a log. -/
def Fits : Option (Lock R) → Event R → Prop
  | none, .locked position ambiguity _ correlation =>
    -- A search that finds no correlation above -1 still enters the lock if the threshold
    -- is smaller.
    cfg.correlationThreshold < correlation ∧
      (correlation = -1 ∨ AsmBefore cfg stream position ambiguity correlation)
  | some lock, .message message =>
    IsFrame cfg stream tags (lock.next cfg) lock.ambiguity (lock.frameCount + lock.frames)
        lock.correlation message ∧
      confidence cfg stream lock.position lock.ambiguity lock.frames ≠ none
  | some lock, .lost => confidence cfg stream lock.position lock.ambiguity lock.frames = none
  | _, _ => False

/-- A log in which every event fits. -/
inductive Valid : List (Event R) → Prop where
  | nil : Valid []
  | append {log : List (Event R)} {event : Event R} (hlog : Valid log)
      (hevent : Fits cfg stream tags (currentLock log) event) : Valid (log ++ [event])

variable {cfg stream tags}

theorem Valid.fits {before after : List (Event R)} {event : Event R}
    (hvalid : Valid cfg stream tags (before ++ event :: after)) :
    Fits cfg stream tags (currentLock before) event := by
  generalize hlog : before ++ event :: after = log at hvalid
  induction hvalid generalizing after with
  | nil => simp at hlog
  | append hprevious hevent ih =>
      rcases List.eq_nil_or_concat after with rfl | ⟨init, last, rfl⟩
      · obtain ⟨rfl, heq⟩ := List.append_inj' hlog rfl
        cases heq
        exact hevent
      · rw [List.concat_eq_append, ← List.cons_append, ← List.append_assoc] at hlog
        exact ih (List.append_inj' hlog rfl).1

end Log

end GrCcsds.Ambiguity
