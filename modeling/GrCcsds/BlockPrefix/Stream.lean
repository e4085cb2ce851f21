import GrCcsds.BlockPrefix.Block
import GrCcsds.Foundation.Framing

/-! # The prefixed stream

Whatever the sizes of the calls, the output is the framed stream up to the
position of the block counter, and the consumed bytes are the data before this
position. An iteration keeps this, the loop ends because every iteration but the
last makes progress, and so every run keeps it.
-/

namespace GrCcsds.BlockPrefix

open Foundation Foundation.Framing Utils

variable {c : Config} {input : Nat → UInt8}

/-- Where the block stands after some calls. -/
structure Session.Streams (c : Config) (input : Nat → UInt8) (s : Session) : Prop where
  stands : Stands c.prefixBytes c.blockLen input s.out s.consumed s.blockCounter
  counter_lt : s.blockCounter < c.outputBlockLen

/-- Where the block stands within a call that began in a given state. -/
structure Work.Follows (c : Config) (input : Nat → UInt8) (s : Session) (call : Call)
    (w : Work) : Prop where
  stands : Stands c.prefixBytes c.blockLen input (s.out ++ w.out) (s.consumed + w.numInTotal)
    w.blockCounter
  counter_lt : w.blockCounter < c.outputBlockLen
  numInTotal_le : w.numInTotal ≤ call.ninputItems
  length_out_le : w.out.length ≤ call.noutputItems

@[simp] theorem length_available (consumed ninputItems : Nat) :
    (available input consumed ninputItems).length = ninputItems := by
  simp [available]

theorem memcpy_of_le {source : List UInt8} {offset count : Nat}
    (hbound : offset + count ≤ source.length) :
    memcpy source offset count = some ((source.drop offset).take count) :=
  if_pos hbound

theorem memcpy_available {consumed ninputItems offset count : Nat}
    (hbound : offset + count ≤ ninputItems) :
    memcpy (available input consumed ninputItems) offset count =
      some ((List.range count).map fun j => input (consumed + offset + j)) := by
  rw [memcpy_of_le (by simpa using hbound)]
  congr 1
  apply List.ext_getElem
  · simp only [available, List.length_take, List.length_drop, List.length_map, List.length_range]
    omega
  · intro i _ _
    simp [available, Nat.add_assoc]

/-- What an iteration appends to the output continues the framed stream. Nothing
is appended only when the data part waits for input. -/
structure Produced (c : Config) (input : Nat → UInt8) (s : Session) (call : Call) (w : Work)
    (copied : List UInt8) (numConsumed : Nat) : Prop where
  stands : Stands c.prefixBytes c.blockLen input (s.out ++ (w.out ++ copied))
    (s.consumed + (w.numInTotal + numConsumed)) (w.blockCounter + copied.length)
  counter_le : w.blockCounter + copied.length ≤ c.outputBlockLen
  numInTotal_le : w.numInTotal + numConsumed ≤ call.ninputItems
  length_out_le : w.out.length + copied.length ≤ call.noutputItems
  progress : (c.prefixLen ≤ w.blockCounter → w.numInTotal < call.ninputItems) → 0 < copied.length

variable {s : Session} {call : Call} {w : Work}

/-- The next byte is one of the data part, and the input has been used up. -/
structure Work.Waits (c : Config) (call : Call) (w : Work) : Prop where
  prefixLen_le : c.prefixLen ≤ w.blockCounter
  numInTotal_eq : w.numInTotal = call.ninputItems

theorem produce_spec (hfollows : w.Follows c input s call)
    (hspace : w.out.length < call.noutputItems) :
    ∃ copied numConsumed,
      produce c (available input s.consumed call.ninputItems)
        (call.noutputItems - w.out.length) w = some (copied, numConsumed) ∧
      Produced c input s call w copied numConsumed := by
  have hcounter := hfollows.counter_lt
  have hnumIn := hfollows.numInTotal_le
  unfold produce
  split
  next hpart =>
    simp only [pickSmaller_eq_min]
    have hcopy : w.blockCounter +
        min (c.prefixLen - w.blockCounter) (call.noutputItems - w.out.length) ≤
          c.prefixBytes.length := by
      change _ ≤ c.prefixLen
      omega
    have hlength : ((c.prefixBytes.drop w.blockCounter).take
        (min (c.prefixLen - w.blockCounter) (call.noutputItems - w.out.length))).length =
          min (c.prefixLen - w.blockCounter) (call.noutputItems - w.out.length) := by
      rw [List.length_take, List.length_drop]
      omega
    refine ⟨_, 0, by rw [memcpy_of_le hcopy]; rfl, ?_, ?_, hnumIn, ?_, fun _ => ?_⟩
    · rw [hlength, ← List.append_assoc]
      exact hfollows.stands.copy_front hcopy
    · have hle : c.prefixLen ≤ c.outputBlockLen := Nat.le_add_right _ _
      rw [hlength]
      omega
    · rw [hlength]
      omega
    · rw [hlength]
      omega
  next hdata =>
    rw [if_pos (Nat.le_of_lt hcounter)]
    simp only [pickSmaller_eq_min, length_available]
    have hcopy : w.numInTotal + min (min (c.outputBlockLen - w.blockCounter)
        (call.noutputItems - w.out.length)) (call.ninputItems - w.numInTotal) ≤
          call.ninputItems := by
      omega
    refine ⟨_, _, by rw [memcpy_available hcopy]; rfl, ?_, ?_, hcopy, ?_, fun hinput => ?_⟩
    · rw [List.length_map, List.length_range, ← List.append_assoc, ← Nat.add_assoc]
      apply hfollows.stands.copy_data (Nat.le_of_not_lt hdata)
      change _ ≤ c.outputBlockLen
      omega
    · rw [List.length_map, List.length_range]
      omega
    · rw [List.length_map, List.length_range]
      omega
    · have hwaiting := hinput (Nat.le_of_not_lt hdata)
      rw [List.length_map, List.length_range]
      omega

/-- The counter starts again at the end of a block. -/
theorem Produced.follows {copied : List UInt8} {numConsumed : Nat}
    (hblock : 0 < c.outputBlockLen) (hproduced : Produced c input s call w copied numConsumed) :
    Work.Follows c input s call
      { blockCounter :=
          if w.blockCounter + copied.length = c.prefixLen + c.blockLen then 0
          else w.blockCounter + copied.length
        numInTotal := w.numInTotal + numConsumed
        out := w.out ++ copied } where
  stands := by
    split
    next hend => exact Stands.next_block (hend ▸ hproduced.stands)
    next => exact hproduced.stands
  counter_lt := by
    split
    next => exact hblock
    next hinside => exact Nat.lt_of_le_of_ne hproduced.counter_le hinside
  numInTotal_le := hproduced.numInTotal_le
  length_out_le := by
    rw [List.length_append]
    exact hproduced.length_out_le

/-- Nothing is produced only if the data part waits for input. -/
theorem Produced.waits {copied : List UInt8} {numConsumed : Nat}
    (hfollows : w.Follows c input s call) (hproduced : Produced c input s call w copied numConsumed)
    (hnothing : copied.length = 0) :
    Work.Waits c call
      { blockCounter :=
          if w.blockCounter + copied.length = c.prefixLen + c.blockLen then 0
          else w.blockCounter + copied.length
        numInTotal := w.numInTotal + numConsumed
        out := w.out ++ copied } := by
  have hcounter := hfollows.counter_lt
  have hused := hproduced.numInTotal_le
  obtain ⟨hpart, hinput⟩ : c.prefixLen ≤ w.blockCounter ∧ call.ninputItems ≤ w.numInTotal := by
    by_contra hmore
    refine Nat.ne_of_gt (hproduced.progress fun hpart => ?_) hnothing
    exact Nat.lt_of_not_le fun hle => hmore ⟨hpart, hle⟩
  have hinside : ¬ w.blockCounter + copied.length = c.prefixLen + c.blockLen := by
    rw [hnothing]
    exact Nat.ne_of_lt hcounter
  refine ⟨?_, Nat.le_antisymm hused (Nat.le_add_right_of_le hinput)⟩
  rw [if_neg hinside]
  exact Nat.le_add_right_of_le hpart

/-- No assertion of an iteration fails. It is the last one if it produces nothing. -/
theorem iteration_spec (hblock : 0 < c.outputBlockLen) (hfollows : w.Follows c input s call)
    (hspace : w.out.length < call.noutputItems)
    (hinput : w.out = [] → c.prefixLen ≤ w.blockCounter → w.numInTotal < call.ninputItems) :
    ∃ next numProduced,
      iteration c (available input s.consumed call.ninputItems) call.noutputItems w =
        some (next, numProduced) ∧
      next.Follows c input s call ∧ next.out.length = w.out.length + numProduced ∧
      next.out ≠ [] ∧ (numProduced = 0 → next.Waits c call) := by
  obtain ⟨copied, numConsumed, hproduce, hproduced⟩ := produce_spec hfollows hspace
  have hpositive : 0 < (w.out ++ copied).length := by
    rw [List.length_append]
    rcases List.eq_nil_or_concat w.out with hempty | ⟨front, last, hfront⟩
    · exact Nat.add_pos_right _ (hproduced.progress (hinput hempty))
    · rw [hfront]
      simp
  refine ⟨_, _, ?_, hproduced.follows hblock, List.length_append,
    List.ne_nil_of_length_pos hpositive, hproduced.waits hfollows⟩
  have hbefore : w.numInTotal ≤ (available input s.consumed call.ninputItems).length ∧
      w.out.length ≤ call.noutputItems :=
    ⟨by simpa using hfollows.numInTotal_le, hfollows.length_out_le⟩
  have hafter : w.blockCounter + copied.length ≤ c.outputBlockLen ∧
      0 < (w.out ++ copied).length ∧ (w.out ++ copied).length ≤ call.noutputItems :=
    ⟨hproduced.counter_le, hpositive, List.length_append ▸ hproduced.length_out_le⟩
  rw [iteration, if_pos hbefore, hproduce, Option.bind_some]
  exact if_pos hafter

/-- The loop ends with a full output, or when the data part waits for input. -/
theorem workLoop_spec (hblock : 0 < c.outputBlockLen) {iterations : Nat}
    (hfollows : w.Follows c input s call)
    (hinput : w.out = [] → c.prefixLen ≤ w.blockCounter → w.numInTotal < call.ninputItems)
    (hiterations : call.noutputItems ≤ w.out.length + iterations) :
    ∃ next,
      workLoop c (available input s.consumed call.ninputItems) call.noutputItems iterations w =
        some next ∧ next.Follows c input s call ∧
      (next.out.length = call.noutputItems ∨ next.Waits c call) := by
  induction iterations generalizing w with
  | zero =>
      exact ⟨w, if_neg (Nat.not_lt_of_le hiterations), hfollows,
        Or.inl (Nat.le_antisymm hfollows.length_out_le hiterations)⟩
  | succ iterations ih =>
      rw [workLoop]
      split
      next hspace =>
        obtain ⟨next, numProduced, hiteration, hnext, hlength, hsome, hwaits⟩ :=
          iteration_spec hblock hfollows hspace hinput
        rw [hiteration, Option.bind_some]
        by_cases hprogress : numProduced = 0
        · exact ⟨next, if_pos hprogress, hnext, Or.inr (hwaits hprogress)⟩
        · obtain ⟨last, hlast, hfollowsLast⟩ :=
            ih hnext (fun hempty => absurd hempty hsome) (by omega)
          exact ⟨last, (if_neg hprogress).trans hlast, hfollowsLast⟩
      next hfull =>
        exact ⟨w, rfl, hfollows,
          Or.inl (Nat.le_antisymm hfollows.length_out_le (Nat.le_of_not_lt hfull))⟩

theorem Session.generalWork_spec (hblock : 0 < c.outputBlockLen) (hstreams : s.Streams c input)
    (hpermitted : s.Permitted c call) :
    ∃ w, generalWork c s.blockCounter call.noutputItems
        (available input s.consumed call.ninputItems) = some w ∧ w.Follows c input s call ∧
      (w.out.length = call.noutputItems ∨ w.Waits c call) := by
  have hfollows : Work.Follows c input s call
      { blockCounter := s.blockCounter, numInTotal := 0, out := [] } :=
    ⟨by simpa using hstreams.stands, hstreams.counter_lt, Nat.zero_le _, Nat.zero_le _⟩
  rw [generalWork, if_pos hpermitted.noutputItems_pos]
  exact workLoop_spec hblock hfollows (fun _ => hpermitted.ninputItems_pos)
    (Nat.le_of_eq (Nat.zero_add _).symm)

theorem Session.step_spec (hblock : 0 < c.outputBlockLen) (hstreams : s.Streams c input)
    (hpermitted : s.Permitted c call) :
    ∃ next, s.step c input call = some next ∧ next.Streams c input := by
  obtain ⟨w, hwork, hw, -⟩ := generalWork_spec hblock hstreams hpermitted
  have hstep : s.step c input call = some
      { blockCounter := w.blockCounter
        out := s.out ++ w.out
        consumed := s.consumed + w.numInTotal } := by
    rw [step, hwork]
    rfl
  exact ⟨_, hstep, hw.stands, hw.counter_lt⟩

theorem Session.streams_of_reachable (hblock : 0 < c.outputBlockLen)
    (hreachable : Transition.Reachable (Session.step c input) (Session.Permitted c) .initial s) :
    s.Streams c input := by
  have hstart : Session.initial.Streams c input := ⟨stands_start, hblock⟩
  apply hreachable.invariant hstart
  intro s call next hstreams hpermitted hstep
  obtain ⟨after, hafter, hnext⟩ := step_spec hblock hstreams hpermitted
  cases hafter.symm.trans hstep
  exact hnext

end GrCcsds.BlockPrefix
