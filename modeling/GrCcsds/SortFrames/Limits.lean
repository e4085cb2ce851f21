import GrCcsds.SortFrames.Slots

/-! # The limits of the frame numbers

Sums of frame numbers and window sizes are taken modulo 2 ^ 64, and so is the
counter of the flush. The window comparison is exact unless its sum passes the
newest number on the way around, and the flush ends unless the newest number
is the largest of all.
-/

namespace GrCcsds.SortFrames

open Utils

variable {Score Data : Type} {cfg : Config}

/-- The comparison by which `store_frame` rejects a frame number. -/
def State.tooOld (s : State cfg Score Data) (frameNumber : Nat) : Prop :=
  (frameNumber + cfg.window) % size64 ≤ s.currentFrame

instance (s : State cfg Score Data) (frameNumber : Nat) : Decidable (s.tooOld frameNumber) :=
  inferInstanceAs (Decidable (_ ≤ _))

/-- The loop of `flush_frames` with the numbers that it passes to `send_frame`. -/
def State.flushCalls : Nat → Nat → State cfg Score Data →
    Option (List Nat × State cfg Score Data)
  | 0, _, _ => none
  | fuel + 1, i, s =>
    if i ≤ s.currentFrame then
      (State.flushCalls fuel ((i + 1) % size64) (s.sendFrame i)).map
        fun (calls, last) => (i :: calls, last)
    else some ([], s)

/-- The first value of the counter of `flush_frames`. -/
def State.flushStart (s : State cfg Score Data) : Nat :=
  minusCapZero ((s.currentFrame + 1) % size64) cfg.window

/-- Flushing ends after one call of `send_frame` for every number of the window, in order. -/
def State.FlushesWindow (s : State cfg Score Data) : Prop :=
  ∃ fuel last, s.flushCalls fuel s.flushStart =
    some (List.range' (s.currentFrame + 1 - cfg.window)
      (s.currentFrame + 1 - (s.currentFrame + 1 - cfg.window)), last)

@[simp] theorem State.setDuplicates_currentFrame (s : State cfg Score Data) (number : Nat)
    (dups : FrameDuplicates Score Data) :
    (s.setDuplicates number dups).currentFrame = s.currentFrame := rfl

section Flush

theorem State.flushLoop_eq_flushCalls (fuel start : Nat) (s : State cfg Score Data) :
    s.flushLoop fuel start = (s.flushCalls fuel start).map Prod.snd := by
  induction fuel generalizing start s with
  | zero => rfl
  | succ fuel ih =>
      rw [State.flushLoop, State.flushCalls, ih]
      split
      next =>
        rw [Option.map_map]
        rfl
      next => rfl

theorem State.flushFrames_eq_flushCalls (fuel : Nat) (s : State cfg Score Data) :
    s.flushFrames fuel = (s.flushCalls fuel s.flushStart).map
      fun (_, last) => { last with flushed := true } := by
  rw [State.flushFrames, State.flushLoop_eq_flushCalls, Option.map_map]
  rfl

/-- Below the largest number the loop sends every number up to the newest one. -/
theorem State.flushCalls_eq (fuel start : Nat) (s : State cfg Score Data)
    (hstart : start ≤ s.currentFrame + 1) (hsize : s.currentFrame + 1 < size64)
    (hfuel : s.currentFrame + 1 - start < fuel) :
    ∃ last, s.flushCalls fuel start =
      some (List.range' start (s.currentFrame + 1 - start), last) := by
  induction fuel generalizing start s with
  | zero => exact absurd hfuel (Nat.not_lt_zero _)
  | succ fuel ih =>
      rw [State.flushCalls]
      by_cases hmore : start ≤ s.currentFrame
      · have hcount : s.currentFrame + 1 - start = s.currentFrame + 1 - (start + 1) + 1 := by
          omega
        obtain ⟨last, hlast⟩ := ih (start + 1) (s.sendFrame start) (by simpa using hmore) hsize
          (by simp only [State.sendFrame_currentFrame]; omega)
        rw [if_pos hmore, Nat.mod_eq_of_lt (by omega), hlast, hcount, List.range'_succ]
        exact ⟨last, rfl⟩
      · have hcount : s.currentFrame + 1 - start = 0 := by omega
        rw [if_neg hmore, hcount]
        exact ⟨s, rfl⟩

/-- At the largest number the counter never passes the newest one. -/
theorem State.flushCalls_eq_none (fuel : Nat) {start : Nat} {s : State cfg Score Data}
    (hsize : s.currentFrame + 1 = size64) (hstart : start < size64) :
    s.flushCalls fuel start = none := by
  induction fuel generalizing start s with
  | zero => rfl
  | succ fuel ih =>
      have hnext : (start + 1) % size64 < size64 := Nat.mod_lt _ (by decide)
      rw [State.flushCalls, if_pos (by omega), ih (s := s.sendFrame start) hsize hnext]
      rfl

theorem State.flushStart_of_lt {s : State cfg Score Data} (hsize : s.currentFrame + 1 < size64) :
    s.flushStart = s.currentFrame + 1 - cfg.window := by
  rw [State.flushStart, minusCapZero_eq_sub, Nat.mod_eq_of_lt hsize]

theorem State.flushStart_lt (s : State cfg Score Data) : s.flushStart < size64 := by
  rw [State.flushStart, minusCapZero_eq_sub]
  exact (Nat.sub_le _ _).trans_lt (Nat.mod_lt _ (by decide))

theorem State.flushesWindow_iff {s : State cfg Score Data} (hsize : s.currentFrame < size64) :
    s.FlushesWindow ↔ s.currentFrame < size64 - 1 := by
  constructor
  · rintro ⟨fuel, last, hcalls⟩
    by_contra hlargest
    rw [State.flushCalls_eq_none fuel (by omega) s.flushStart_lt] at hcalls
    cases hcalls
  · intro hless
    have hnext : s.currentFrame + 1 < size64 := by omega
    rw [State.FlushesWindow, State.flushStart_of_lt hnext]
    exact ⟨_, s.flushCalls_eq _ _ (Nat.sub_le _ _) hnext (Nat.lt_succ_self _)⟩

end Flush

section Comparison

/-- The comparison is wrong if and only if the wrapped sum lies at or below the newest number. -/
theorem State.tooOld_exact_iff {s : State cfg Score Data} (hsize : s.currentFrame < size64)
    (hwindow : cfg.window < size64) {number : Nat} (hnumber : number < size64) :
    (s.tooOld number ↔ number + cfg.window ≤ s.currentFrame) ↔
      number + cfg.window < size64 ∨ s.currentFrame < number + cfg.window - size64 := by
  unfold State.tooOld
  by_cases hfits : number + cfg.window < size64
  · rw [Nat.mod_eq_of_lt hfits]
    simp [hfits]
  · have hwrapped : (number + cfg.window) % size64 = number + cfg.window - size64 := by
      rw [Nat.mod_eq_sub_mod (Nat.not_lt.mp hfits), Nat.mod_eq_of_lt (by omega)]
    have hnewer : ¬ number + cfg.window ≤ s.currentFrame := by omega
    simp only [hwrapped, hfits, hnewer, iff_false, false_or, not_le]

variable [Zero Score] [LT Score] [DecidableLT Score]

/-- A PDU with all header fields is dropped exactly if its number is too old. -/
theorem State.storePdu_eq_ite (s : State cfg Score Data) {pdu : Pdu Score Data} {number : Nat}
    (hnumber : getFrameNumber pdu = some number)
    (hscore : ((getFrameScore cfg pdu).isNone && cfg.hasScoreField) = false) :
    s.storePdu pdu =
      if s.tooOld number then s
      else (s.advanceTo number).setDuplicates number
        (addDuplicate cfg ((s.advanceTo number).getDuplicates number) pdu) := by
  rw [State.storePdu, hnumber]
  simp only [hscore, Bool.false_eq_true, if_false]
  rfl

omit [Zero Score] [LT Score] [DecidableLT Score] in
theorem getFrameNumber_lt {pdu : Pdu Score Data} {number : Nat}
    (hnumber : getFrameNumber pdu = some number) : number < size64 := by
  obtain ⟨value, -, rfl⟩ := Option.map_eq_some_iff.mp hnumber
  exact value.toNat_lt

theorem State.IsReachable.currentFrame_lt {s : State cfg Score Data} (hreachable : s.IsReachable) :
    s.currentFrame < size64 := by
  apply hreachable.invariant
  · change 0 < size64
    decide
  · intro s pdu hs
    rcases s.storePdu_cases pdu with heq | ⟨number, hnumber, -, heq⟩
    · rwa [heq]
    · rw [heq, State.setDuplicates_currentFrame, s.advanceTo_currentFrame]
      exact max_lt hs (getFrameNumber_lt hnumber)
  · exact fun _ _ hs => hs
  · exact fun _ _ _ _ hs => hs

/-- In every reachable state the window comparison is exact for exactly those numbers whose sum
with the window size does not wrap to the newest number or below it, and the flush sends exactly
the window unless the newest number is the largest one. -/
theorem limits_of_reachable {s : State cfg Score Data} (hreachable : s.IsReachable)
    (hwindow : cfg.window < size64) {number : Nat} (hnumber : number < size64) :
    ((s.tooOld number ↔ number + cfg.window ≤ s.currentFrame) ↔
      number + cfg.window < size64 ∨ s.currentFrame < number + cfg.window - size64) ∧
    (s.FlushesWindow ↔ s.currentFrame < size64 - 1) :=
  ⟨State.tooOld_exact_iff hreachable.currentFrame_lt hwindow hnumber,
    State.flushesWindow_iff hreachable.currentFrame_lt⟩

/-- The comparison is right for a small number, and wrong for one whose sum wraps to zero. -/
theorem limits_of_reachable_one_frame :
    (((State.initial windowTwo).storePdu (plainFrame 3)).tooOld 1 ↔ 1 + 2 ≤ 3) ∧
      ¬ (((State.initial windowTwo).storePdu (plainFrame 3)).tooOld (size64 - 2) ↔
        size64 - 2 + 2 ≤ 3) ∧
      ((State.initial windowTwo).storePdu (plainFrame 3)).FlushesWindow := by
  have hreachable : State.IsReachable ((State.initial windowTwo).storePdu (plainFrame 3)) :=
    State.IsReachable.storePdu .refl (plainFrame 3)
  obtain ⟨hsmall, hflush⟩ := limits_of_reachable hreachable (by decide) (show 1 < size64 by decide)
  obtain ⟨hlarge, -⟩ :=
    limits_of_reachable hreachable (by decide) (show size64 - 2 < size64 by decide)
  refine ⟨hsmall.mpr (.inl (by decide)), fun hexact => ?_, hflush.mpr (by decide)⟩
  rcases hlarge.mp hexact with hfits | hnewer
  · exact absurd hfits (by decide)
  · exact absurd hnewer (by decide)

/-- The new block takes the last number but one for an old one, and after the last number a flush
never ends. -/
theorem largest_numbers_not_handled :
    (State.initial windowTwo : State windowTwo Nat Unit).IsReachable ∧
    (State.initial windowTwo : State windowTwo Nat Unit).tooOld (size64 - 2) ∧
    ¬ size64 - 2 + windowTwo.window ≤ 0 ∧
    ((State.initial windowTwo).storePdu (plainFrame 18446744073709551615)).IsReachable ∧
    ∀ fuel, ((State.initial windowTwo).storePdu
      (plainFrame 18446744073709551615)).flushFrames fuel = none := by
  refine ⟨.refl, by decide, by decide, State.IsReachable.storePdu .refl _, ?_⟩
  intro fuel
  have hnumber : getFrameNumber (plainFrame 18446744073709551615) = some (size64 - 1) := rfl
  have hnew : ¬ (State.initial windowTwo : State windowTwo Nat Unit).tooOld (size64 - 1) := by
    decide
  rw [State.flushFrames_eq_flushCalls, State.flushCalls_eq_none, Option.map_none]
  · rw [State.storePdu_eq_ite _ hnumber rfl, if_neg hnew, State.setDuplicates_currentFrame,
      State.advanceTo_currentFrame]
    decide
  · exact State.flushStart_lt _

end Comparison

end GrCcsds.SortFrames
