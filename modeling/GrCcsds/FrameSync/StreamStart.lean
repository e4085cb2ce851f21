import GrCcsds.FrameSync.Make
import GrCcsds.FrameSync.Uniqueness

/-! # Frames at the start of the stream

A frame may ask for symbols from before the start of the stream. The block
throws for each frame whose ASM lies within the extra head symbols, and for each
one whose message does not fit a vector. It handles all frames if and only if it
never meets one of these.
-/

namespace GrCcsds.FrameSync

open Utils Foundation

variable {env : Platform} {cfg : Config}

section Positions

/-- The ASM of a frame lies behind its extra head symbols, and its message fits a vector. -/
structure Accepted (env : Platform) (cfg : Config) (info : AsmPosition) : Prop where
  numHead_le : cfg.numHead ≤ info.offset
  fits : messageLen env cfg ≤ maxVectorLen

theorem exists_queueFrameOutput (queue : List (Task env)) (info : AsmPosition) (primary : Bool) :
    (∃ next, queueFrameOutput cfg queue info primary = some next) ↔ Accepted env cfg info := by
  unfold queueFrameOutput
  split
  next hlt => exact iff_of_false (by simp) fun haccepted => haccepted.numHead_le.not_gt hlt
  next hle =>
    split
    next hlong => exact iff_of_false (by simp) fun haccepted => haccepted.fits.not_gt hlong
    next hfits =>
      refine iff_of_true ?_ ⟨Nat.le_of_not_lt hle, Nat.le_of_not_lt hfits⟩
      split
      · split
        · exact ⟨_, rfl⟩
        · exact ⟨_, rfl⟩
      · exact ⟨_, rfl⟩

theorem exists_queueSecondary (cfg : Config) (infos : List AsmPosition) (queue : List (Task env)) :
    (∃ next, queueSecondary cfg infos queue = .ok next) ↔
      ∀ info ∈ infos, Accepted env cfg info := by
  induction infos generalizing queue with
  | nil => simp [queueSecondary]
  | cons info rest ih =>
      rw [queueSecondary, List.forall_mem_cons, ← exists_queueFrameOutput queue info false]
      cases hfirst : queueFrameOutput cfg queue info false with
      | none => simp
      | some middle => simpa using ih middle

/-- The positions that `processBuffer` queues for the result of a search. -/
def generated (cfg : Config) (b : Block env) (index ambiguity : Nat) : List AsmPosition :=
  let frame : AsmPosition :=
    { offset := b.buffer.offset + index, ambiguity := ambiguity, sequence := b.sequenceNumber + 1 }
  frame :: secondaryPositions cfg frame

theorem exists_processBuffer (cfg : Config) (b : Block env) (index ambiguity : Nat) :
    (∃ next, processBuffer cfg b index ambiguity = .ok next) ↔
      ∀ info ∈ generated cfg b index ambiguity, Accepted env cfg info := by
  change _ ↔ ∀ info ∈ foundFrame b index ambiguity ::
    secondaryPositions cfg (foundFrame b index ambiguity), _
  rw [List.forall_mem_cons, ← exists_queueFrameOutput b.frameQueue _ true]
  obtain ⟨hnone, heq⟩ | ⟨queue, next, hfirst, hcases⟩ := processBuffer_cases cfg b index ambiguity
  · simp [heq, hnone]
  · rw [← exists_queueSecondary cfg _ queue]
    obtain ⟨hrest, heq⟩ | ⟨hrest, heq⟩ := hcases
    · simp [heq, hrest]
    · simp [heq, hfirst, hrest]

end Positions

/-- What a list of positions asks of the queue: frames that start before the stream are
skipped and all others are queued. -/
structure Handled (cfg : Config) (positions : List AsmPosition) (queue next : List (Task env)) :
    Prop where
  skipped : ∀ info ∈ positions, (info.offset + cfg.asmLen : Int) < cfg.head →
    info.key ∈ keys next → info.key ∈ keys queue
  queued : ∀ info ∈ positions, cfg.head ≤ (info.offset + cfg.asmLen : Int) → info.key ∈ keys next

namespace Machine

/-- The positions that a step queues. -/
def generated (cfg : Config) (m : Machine env) : Label env.Sample → List AsmPosition
  | .found index ambiguity => FrameSync.generated cfg m.block index ambiguity
  | _ => []

/-- A step raises no exception and handles what it generates. -/
def Handles (cfg : Config) (m : Machine env) (label : Label env.Sample) : Prop :=
  ∀ next, m.step cfg label = some next → next.point ≠ .workRaised ∧ next.point ≠ .stopRaised ∧
    Handled cfg (m.generated cfg label) m.block.frameQueue next.block.frameQueue

/-- A step generates accepted positions only. -/
def Accepts (cfg : Config) (m : Machine env) (label : Label env.Sample) : Prop :=
  ∀ info ∈ m.generated cfg label, Accepted env cfg info

end Machine

end GrCcsds.FrameSync
