import GrCcsds.Foundation.Memory
import GrCcsds.Messages.Source

/-! # Message sinks

`blob_msg_sink_b_impl` and `softbit_msg_sink_f_impl`. Both fill a buffer from
the input of several calls of `work` and publish it when it is full. Their loops
count in opposite directions and reset the fill count in different ways.
-/

namespace GrCcsds.Messages

open Foundation Utils

/-- The members of a sink and the messages it has published. -/
structure Sink (Other Float α : Type) where
  buffer : Nat → α
  bufferCount : Nat
  published : List (Message Other Float)

variable {Other Float α : Type}

namespace Sink

/-- The buffer is not initialised. -/
def initial (buffer : Nat → α) : Sink Other Float α where
  buffer := buffer
  bufferCount := 0
  published := []

/-- The end of the stream. -/
def stop (s : Sink Other Float α) : Sink Other Float α :=
  { s with published := s.published ++ [.eof] }

/-- Copy a part of the input to the buffer, and publish the buffer if it is full. -/
def fill (len : Nat) (pack : List α → Data Float) (reset : Nat → Nat) (input : Nat → α)
    (numProcessed numCopy : Nat) (s : Sink Other Float α) : Sink Other Float α :=
  let buffer :=
    Memory.copy s.bufferCount numCopy (fun i => input (numProcessed + i)) s.buffer
  let bufferCount := s.bufferCount + numCopy
  if bufferCount ≥ len then
    { buffer
      bufferCount := reset bufferCount
      published := s.published ++ [.pair (some []) (pack ((List.range len).map buffer))] }
  else { s with buffer, bufferCount }

end Sink

namespace BlobSink

variable (blobLen : Nat) (input : Nat → UInt8) (numOut : Nat)

/-- The loop of `work`; `none` if it needs more iterations than given. -/
def workLoop : Nat → Nat → Sink Other Float UInt8 → Option (Sink Other Float UInt8)
  | 0, numProcessed, s => if minusCapZero numOut numProcessed > 0 then none else some s
  | iterations + 1, numProcessed, s =>
    if minusCapZero numOut numProcessed > 0 then
      let numCopy := pickSmaller (minusCapZero numOut numProcessed)
        (minusCapZero blobLen s.bufferCount)
      workLoop iterations (numProcessed + numCopy)
        (s.fill blobLen Data.blob (fun _ => 0) input numProcessed numCopy)
    else some s

def work (noutputItems : Nat) (s : Sink Other Float UInt8) : Option (Sink Other Float UInt8) :=
  workLoop blobLen input noutputItems noutputItems 0 s

end BlobSink

namespace SoftbitSink

variable (frameLen : Nat) (input : Nat → Float) (noutputItems : Nat)

/-- The loop of `work`; `none` if it needs more iterations than given. -/
def workLoop : Nat → Nat → Sink Other Float Float → Option (Sink Other Float Float)
  | 0, toProcess, s => if toProcess > 0 then none else some s
  | iterations + 1, toProcess, s =>
    if toProcess > 0 then
      let numCopy := min toProcess (frameLen - s.bufferCount)
      let numProcessed := minusCapZero noutputItems toProcess
      workLoop iterations (toProcess - numCopy)
        (s.fill frameLen Data.f32vector (fun count => count - frameLen) input numProcessed numCopy)
    else some s

def work (s : Sink Other Float Float) : Option (Sink Other Float Float) :=
  workLoop frameLen input noutputItems noutputItems noutputItems s

end SoftbitSink

namespace Sink

/-- Message `k` of a stream that is cut into messages of a length. -/
def segment (len : Nat) (stream : Nat → α) (k : Nat) : List α :=
  (List.range len).map fun j => stream (k * len + j)

/-- The sink has published the first segments and holds the beginning of the next one. -/
structure Cut (len : Nat) (pack : List α → Data Float) (stream : Nat → α) (segments : Nat)
    (s : Sink Other Float α) : Prop where
  published : s.published =
    (List.range segments).map fun k => .pair (some []) (pack (segment len stream k))
  bufferCount_lt : s.bufferCount < len
  kept : ∀ i < s.bufferCount, s.buffer i = stream (segments * len + i)

variable {len : Nat} {pack : List α → Data Float} {input stream : Nat → α}
  {segments : Nat} {s : Sink Other Float α}

theorem cut_initial (hlen : 1 ≤ len) (pack : List α → Data Float) (stream buffer : Nat → α) :
    (initial buffer : Sink Other Float α).Cut len pack stream 0 where
  published := rfl
  bufferCount_lt := hlen
  kept := fun _ hi => absurd hi (Nat.not_lt_zero _)

/-- The buffer after a copy that continues the stream. -/
theorem Cut.copied (hcut : s.Cut len pack stream segments) {numProcessed numCopy : Nat}
    (hinput : ∀ i < numCopy,
      input (numProcessed + i) = stream (segments * len + s.bufferCount + i))
    {i : Nat} (hi : i < s.bufferCount + numCopy) :
    Memory.copy s.bufferCount numCopy (fun i => input (numProcessed + i)) s.buffer i =
      stream (segments * len + i) := by
  rcases Nat.lt_or_ge i s.bufferCount with hold | hnew
  · rw [Memory.copy_outside _ _ (Or.inl hold)]
    exact hcut.kept i hold
  · obtain ⟨j, rfl⟩ := Nat.exists_eq_add_of_le hnew
    have hj : j < numCopy := Nat.lt_of_add_lt_add_left hi
    rw [Memory.copy_inside _ _ _ hj, hinput j hj, Nat.add_assoc]

/-- Copying at most what is missing continues the cut. -/
theorem Cut.fill (hcut : s.Cut len pack stream segments) {numProcessed numCopy : Nat}
    (reset : Nat → Nat) (hreset : reset len = 0) (hcopy : numCopy ≤ len - s.bufferCount)
    (hinput : ∀ i < numCopy,
      input (numProcessed + i) = stream (segments * len + s.bufferCount + i)) :
    ∃ segments', (s.fill len pack reset input numProcessed numCopy).Cut len pack stream segments' ∧
      segments' * len + (s.fill len pack reset input numProcessed numCopy).bufferCount =
        segments * len + s.bufferCount + numCopy := by
  have hlt := hcut.bufferCount_lt
  have hcopied := fun i => hcut.copied hinput (i := i)
  rcases Nat.lt_or_ge (s.bufferCount + numCopy) len with hpartial | hfull
  · rw [Sink.fill, if_neg (Nat.not_le_of_lt hpartial)]
    exact ⟨segments, ⟨hcut.published, hpartial, hcopied⟩, (Nat.add_assoc ..).symm⟩
  · have hcount : s.bufferCount + numCopy = len := by omega
    have hsegment : (List.range len).map
        (Memory.copy s.bufferCount numCopy (fun i => input (numProcessed + i)) s.buffer) =
          segment len stream segments := by
      apply List.map_congr_left
      intro i hi
      exact hcopied i (hcount ▸ List.mem_range.mp hi)
    rw [Sink.fill, if_pos hfull, hsegment, hcount, hreset]
    refine ⟨segments + 1, ⟨?_, Nat.zero_lt_of_lt hlt, ?_⟩, ?_⟩
    · rw [List.range_succ, List.map_append, ← hcut.published]
      rfl
    · exact fun _ hi => absurd hi (Nat.not_lt_zero _)
    · rw [Nat.add_assoc _ s.bufferCount, hcount, Nat.succ_mul]
      rfl

/-- An iteration makes progress and continues the cut with the next part of the input. -/
theorem Cut.iterate (hcut : s.Cut len pack stream segments) (reset : Nat → Nat)
    (hreset : reset len = 0) {numProcessed toProcess numCopy : Nat} (hmore : 0 < toProcess)
    (hcopy : numCopy = min toProcess (len - s.bufferCount))
    (hinput : ∀ i < toProcess,
      input (numProcessed + i) = stream (segments * len + s.bufferCount + i)) :
    0 < numCopy ∧ numCopy ≤ toProcess ∧
    ∃ segments', (s.fill len pack reset input numProcessed numCopy).Cut len pack stream segments' ∧
      segments' * len + (s.fill len pack reset input numProcessed numCopy).bufferCount =
        segments * len + s.bufferCount + numCopy ∧
      ∀ i < toProcess - numCopy, input (numProcessed + numCopy + i) =
        stream (segments' * len +
          (s.fill len pack reset input numProcessed numCopy).bufferCount + i) := by
  have hlt := hcut.bufferCount_lt
  have hpart : ∀ i < numCopy,
      input (numProcessed + i) = stream (segments * len + s.bufferCount + i) :=
    fun i hi => hinput i (by omega)
  obtain ⟨segments', hnext, hposition⟩ := hcut.fill reset hreset (by omega) hpart
  refine ⟨by omega, by omega, segments', hnext, hposition, ?_⟩
  intro i hi
  rw [hposition, Nat.add_assoc, hinput _ (by omega), Nat.add_assoc _ numCopy]

end Sink

/-- The loop of the sink of blobs takes the rest of the input. -/
theorem BlobSink.workLoop_spec {len segments : Nat} (input : Nat → UInt8)
    {stream : Nat → UInt8} {numOut numProcessed iterations : Nat} {s : Sink Other Float UInt8}
    (hcut : s.Cut len Data.blob stream segments) (hprocessed : numProcessed ≤ numOut)
    (hiterations : numOut ≤ numProcessed + iterations)
    (hinput : ∀ i < numOut - numProcessed,
      input (numProcessed + i) = stream (segments * len + s.bufferCount + i)) :
    ∃ last segments', workLoop len input numOut iterations numProcessed s = some last ∧
      last.Cut len Data.blob stream segments' ∧ segments' * len + last.bufferCount =
        segments * len + s.bufferCount + (numOut - numProcessed) := by
  induction iterations generalizing numProcessed s segments with
  | zero =>
      obtain rfl : numOut = numProcessed := Nat.le_antisymm hiterations hprocessed
      exact ⟨s, segments, by simp [workLoop], hcut, by simp⟩
  | succ iterations ih =>
      rw [workLoop]
      simp only [pickSmaller_eq_min, minusCapZero_eq_sub]
      split
      next hmore =>
        obtain ⟨hprogress, hle, segments', hnext, hposition, hrest⟩ :=
          hcut.iterate (fun _ => 0) rfl hmore rfl hinput
        rw [← Nat.sub_add_eq] at hrest
        obtain ⟨last, segments'', hloop, hlast, hend⟩ := ih hnext (by omega) (by omega) hrest
        exact ⟨last, segments'', hloop, hlast, by omega⟩
      next hdone => exact ⟨s, segments, rfl, hcut, by omega⟩

/-- The loop of the sink of soft bits takes the rest of the input. -/
theorem SoftbitSink.workLoop_spec {len segments : Nat} (input : Nat → Float)
    {stream : Nat → Float} {noutputItems toProcess iterations : Nat} {s : Sink Other Float Float}
    (hcut : s.Cut len Data.f32vector stream segments) (hprocess : toProcess ≤ noutputItems)
    (hiterations : toProcess ≤ iterations)
    (hinput : ∀ i < toProcess,
      input (noutputItems - toProcess + i) = stream (segments * len + s.bufferCount + i)) :
    ∃ last segments', workLoop len input noutputItems iterations toProcess s = some last ∧
      last.Cut len Data.f32vector stream segments' ∧
      segments' * len + last.bufferCount = segments * len + s.bufferCount + toProcess := by
  induction iterations generalizing toProcess s segments with
  | zero =>
      obtain rfl : toProcess = 0 := Nat.le_zero.mp hiterations
      exact ⟨s, segments, by simp [workLoop], hcut, rfl⟩
  | succ iterations ih =>
      rw [workLoop]
      simp only [minusCapZero_eq_sub]
      split
      next hmore =>
        obtain ⟨hprogress, hle, segments', hnext, hposition, hrest⟩ :=
          hcut.iterate (fun count => count - len) (Nat.sub_self len) hmore rfl hinput
        have hprocessed : noutputItems - (toProcess - min toProcess (len - s.bufferCount)) =
            noutputItems - toProcess + min toProcess (len - s.bufferCount) := by
          omega
        rw [← hprocessed] at hrest
        obtain ⟨last, segments'', hloop, hlast, hend⟩ := ih hnext (by omega) (by omega) hrest
        exact ⟨last, segments'', hloop, hlast, by omega⟩
      next hdone => exact ⟨s, segments, rfl, hcut, by omega⟩

end GrCcsds.Messages
