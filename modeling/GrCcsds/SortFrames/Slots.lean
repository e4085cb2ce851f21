import GrCcsds.Foundation.Transition
import GrCcsds.SortFrames.Window
import Mathlib.Algebra.GroupWithZero.Nat

/-! # The slots of every reachable state

Messages of any kind, `stop` and `work` arrive in any order. In every state
that they lead to, the slot of a number of the window only holds PDUs of that
number, and no slot holds two PDUs unless duplicates are allowed.
-/

namespace GrCcsds.SortFrames

open Utils Foundation

/-- The calls from outside the block. -/
inductive Event (Score Data : Type) where
  | message (message : Message Score Data)
  | stop
  | work

variable {Score Data : Type} [Zero Score] [LT Score] [DecidableLT Score] {cfg : Config}

/-- A call with fuel for the loop of a flush. -/
def State.step (s : State cfg Score Data) :
    Nat × Event Score Data → Option (State cfg Score Data)
  | (fuel, .message message) => s.storeFrame fuel message
  | (_, .stop) => some s.stop
  | (fuel, .work) => (s.work fuel).map Prod.fst

/-- The states that calls of any kind lead to from the new block. -/
def State.IsReachable (s : State cfg Score Data) : Prop :=
  Transition.Reachable State.step (fun _ _ => True) (State.initial cfg) s

section Invariants

variable {inv : State cfg Score Data → Prop}

omit [Zero Score] [LT Score] [DecidableLT Score] in
theorem State.flushLoop_invariant (hsend : ∀ s number, inv s → inv (s.sendFrame number))
    {fuel start : Nat} {s t : State cfg Score Data} (hloop : s.flushLoop fuel start = some t)
    (hs : inv s) : inv t := by
  induction fuel generalizing start s with
  | zero => cases hloop
  | succ fuel ih =>
      rw [State.flushLoop] at hloop
      split at hloop
      next => exact ih hloop (hsend s start hs)
      next =>
        cases hloop
        exact hs

/-- The invariant rule for the members that hold the window: it is enough to look at the storage
of a PDU and at the sending of a slot. -/
theorem State.IsReachable.invariant {s : State cfg Score Data} (hreachable : s.IsReachable)
    (hinitial : inv (State.initial cfg)) (hstore : ∀ s pdu, inv s → inv (s.storePdu pdu))
    (hsend : ∀ s number, inv s → inv (s.sendFrame number))
    (hflags : ∀ (s : State cfg Score Data) stopped flushed out, inv s →
      inv { s with stopped := stopped, flushed := flushed, out := out }) : inv s := by
  have hflush : ∀ (fuel : Nat) (s t : State cfg Score Data), inv s →
      s.flushFrames fuel = some t → inv t := by
    intro fuel s t hs ht
    obtain ⟨sent, hsent, rfl⟩ := Option.map_eq_some_iff.mp ht
    exact hflags sent sent.stopped true sent.out (State.flushLoop_invariant hsend hsent hs)
  apply Transition.Reachable.invariant hreachable hinitial
  rintro s ⟨fuel, event⟩ next hs - hstep
  cases event with
  | message message =>
      cases message with
      | eof =>
          obtain ⟨flushed, hflushed, rfl⟩ := Option.map_eq_some_iff.mp hstep
          exact hflags flushed true flushed.flushed _ (hflush fuel s flushed hs hflushed)
      | notPair =>
          cases hstep
          exact hs
      | headerNotDict =>
          cases hstep
          exact hs
      | frame pdu =>
          cases hstep
          exact hstore s pdu hs
  | stop =>
      cases hstep
      exact hflags s true s.flushed s.out hs
  | work =>
      obtain ⟨⟨worked, done⟩, hwork, rfl⟩ := Option.map_eq_some_iff.mp hstep
      obtain ⟨flushed, hflushed, heq⟩ := Option.map_eq_some_iff.mp hwork
      cases heq
      split at hflushed
      next => exact hflush fuel s worked hs hflushed
      next =>
        cases hflushed
        exact hs

end Invariants

/-- A PDU is dropped, or the window moves up to its number and its slot takes it. -/
theorem State.storePdu_cases (s : State cfg Score Data) (pdu : Pdu Score Data) :
    s.storePdu pdu = s ∨
    ∃ number, getFrameNumber pdu = some number ∧
      s.currentFrame < (number + cfg.window) % size64 ∧
      s.storePdu pdu = (s.advanceTo number).setDuplicates number
        (addDuplicate cfg ((s.advanceTo number).getDuplicates number) pdu) := by
  unfold State.storePdu
  cases hnumber : getFrameNumber pdu with
  | none => exact .inl rfl
  | some number =>
      simp only
      split
      next => exact .inl rfl
      next =>
        split
        next => exact .inl rfl
        next hinside => exact .inr ⟨number, rfl, Nat.lt_of_not_le hinside, rfl⟩

/-- The slots of the window hold PDUs of their own numbers. -/
structure State.SlotsSound (s : State cfg Score Data) : Prop where
  numbers : ∀ number ≤ s.currentFrame, s.currentFrame < number + cfg.window →
    ∀ pdu ∈ (s.getDuplicates number).frames, getFrameNumber pdu = some number
  single : cfg.allowDuplicates = false → ∀ slot, (s.frameStorage slot).frames.length ≤ 1

/-- At most one PDU stays in a slot that does not take duplicates. -/
theorem length_addDuplicate_le_one (hsingle : cfg.allowDuplicates = false)
    {dups : FrameDuplicates Score Data} (hdups : dups.frames.length ≤ 1)
    (pdu : Pdu Score Data) : (addDuplicate cfg dups pdu).frames.length ≤ 1 := by
  unfold addDuplicate
  rw [hsingle]
  split
  next hempty => simp [List.isEmpty_iff.mp hempty]
  next =>
    simp only [Bool.false_eq_true, if_false]
    split
    next => simpa using hdups
    next => exact hdups

omit [Zero Score] [LT Score] [DecidableLT Score] in
theorem length_update_le_one {storage : Fin cfg.window → FrameDuplicates Score Data}
    (hstorage : ∀ slot, (storage slot).frames.length ≤ 1) {dups : FrameDuplicates Score Data}
    (hdups : dups.frames.length ≤ 1) (written slot : Fin cfg.window) :
    (Function.update storage written dups slot).frames.length ≤ 1 := by
  rcases eq_or_ne slot written with rfl | hne
  · rw [Function.update_self]
    exact hdups
  · rw [Function.update_of_ne hne]
    exact hstorage slot

namespace State.SlotsSound

omit [LT Score] [DecidableLT Score] in
theorem initial : (State.initial cfg : State cfg Score Data).SlotsSound where
  numbers := fun _ _ _ _ hpdu => absurd hpdu List.not_mem_nil
  single := fun _ _ => Nat.zero_le 1

omit [Zero Score] [LT Score] [DecidableLT Score] in
theorem sendFrame {s : State cfg Score Data} (hsound : s.SlotsSound) (sent : Nat) :
    (s.sendFrame sent).SlotsSound where
  numbers := by
    intro number hle hwindow pdu hpdu
    by_cases heq : s.slot number = s.slot sent
    · rw [s.getDuplicates_sendFrame_self heq] at hpdu
      exact absurd hpdu List.not_mem_nil
    · rw [s.getDuplicates_sendFrame_of_ne heq] at hpdu
      exact hsound.numbers number hle hwindow pdu hpdu
  single := by
    intro hsingle
    refine length_update_le_one (hsound.single hsingle) ?_ _
    exact Nat.zero_le 1

omit [Zero Score] [LT Score] [DecidableLT Score] in
theorem sentHead {s : State cfg Score Data} (hsound : s.SlotsSound) : s.sentHead.SlotsSound := by
  unfold State.sentHead
  split
  next => exact hsound.sendFrame _
  next => exact hsound

omit [LT Score] [DecidableLT Score] in
/-- A step of the window keeps the numbers that stay and starts with an empty slot. -/
theorem advanceOnce {s : State cfg Score Data} (hsound : s.SlotsSound) :
    s.advanceOnce.SlotsSound where
  numbers := by
    intro number hle hwindow pdu hpdu
    change number ≤ s.currentFrame + 1 at hle
    change s.currentFrame + 1 < number + cfg.window at hwindow
    rcases Nat.lt_or_ge s.currentFrame number with hnew | hold
    · obtain rfl : number = s.currentFrame + 1 := by omega
      rw [s.getDuplicates_advanceOnce_head] at hpdu
      exact absurd hpdu List.not_mem_nil
    · rw [s.getDuplicates_advanceOnce hold hwindow] at hpdu
      have hcurrent : s.sentHead.currentFrame = s.currentFrame := by
        unfold State.sentHead
        split <;> rfl
      exact hsound.sentHead.numbers number (by omega) (by omega) pdu hpdu
  single := by
    intro hsingle
    refine length_update_le_one (hsound.sentHead.single hsingle) ?_ _
    exact Nat.zero_le 1

omit [LT Score] [DecidableLT Score] in
theorem advanceTo {s : State cfg Score Data} (hsound : s.SlotsSound) (number : Nat) :
    (s.advanceTo number).SlotsSound := by
  unfold State.advanceTo
  induction number - s.currentFrame generalizing s with
  | zero => exact hsound
  | succ count ih => exact ih hsound.advanceOnce

/-- Storing a PDU in the slot of its number only touches that number. -/
theorem setDuplicates {s : State cfg Score Data} (hsound : s.SlotsSound) {pdu : Pdu Score Data}
    {number : Nat} (hnumber : getFrameNumber pdu = some number) (hle : number ≤ s.currentFrame)
    (hwindow : s.currentFrame < number + cfg.window) :
    (s.setDuplicates number (addDuplicate cfg (s.getDuplicates number) pdu)).SlotsSound where
  numbers := by
    intro other hother hotherWindow stored hstored
    by_cases hsame : s.slot other = s.slot number
    · obtain rfl : other = number := s.slot_injective hother hotherWindow hle hwindow hsame
      rw [s.getDuplicates_setDuplicates_self] at hstored
      rcases mem_addDuplicate hstored with hold | rfl
      · exact hsound.numbers other hle hwindow stored hold
      · exact hnumber
    · rw [s.getDuplicates_setDuplicates_of_ne _ hsame] at hstored
      exact hsound.numbers other hother hotherWindow stored hstored
  single := by
    intro hsingle
    exact length_update_le_one (hsound.single hsingle)
      (length_addDuplicate_le_one hsingle (hsound.single hsingle _) pdu) _

/-- An accepted number is in the window once the window has moved up to it. -/
theorem storePdu {s : State cfg Score Data} (hsound : s.SlotsSound) (pdu : Pdu Score Data) :
    (s.storePdu pdu).SlotsSound := by
  rcases s.storePdu_cases pdu with heq | ⟨number, hnumber, hinside, heq⟩
  · rw [heq]
    exact hsound
  · have hnewest := s.advanceTo_currentFrame number
    have hpos := cfg.window_pos
    have hsum : s.currentFrame < number + cfg.window := hinside.trans_le (Nat.mod_le _ _)
    rw [heq]
    exact (hsound.advanceTo number).setDuplicates hnumber (by omega) (by omega)

theorem of_reachable {s : State cfg Score Data} (hreachable : s.IsReachable) : s.SlotsSound :=
  hreachable.invariant initial (fun _ pdu hs => hs.storePdu pdu)
    (fun _ number hs => hs.sendFrame number) fun _ _ _ _ hs => ⟨hs.numbers, hs.single⟩

end State.SlotsSound

/-- In every reachable state the numbers of the window have different slots, each with PDUs of its
own number, and at most one PDU if duplicates are not allowed. -/
theorem slots_of_reachable {s : State cfg Score Data} (hreachable : s.IsReachable) :
    (∀ first ≤ s.currentFrame, s.currentFrame < first + cfg.window →
      ∀ second ≤ s.currentFrame, s.currentFrame < second + cfg.window →
        first ≠ second → s.slot first ≠ s.slot second) ∧
    (∀ number ≤ s.currentFrame, s.currentFrame < number + cfg.window →
      ∀ pdu ∈ (s.getDuplicates number).frames, getFrameNumber pdu = some number) ∧
    (cfg.allowDuplicates = false → ∀ slot, (s.frameStorage slot).frames.length ≤ 1) := by
  have hsound := State.SlotsSound.of_reachable hreachable
  refine ⟨?_, hsound.numbers, hsound.single⟩
  intro first hfirst hfirstWindow second hsecond hsecondWindow hne hslot
  exact hne (s.slot_injective hfirst hfirstWindow hsecond hsecondWindow hslot)

theorem State.IsReachable.storePdu {s : State cfg Score Data} (hreachable : s.IsReachable)
    (pdu : Pdu Score Data) : (s.storePdu pdu).IsReachable := by
  have hstep : s.step (0, .message (.frame pdu)) = some (s.storePdu pdu) := rfl
  exact Transition.Reachable.step hreachable trivial hstep

theorem State.IsReachable.foldl_storePdu {s : State cfg Score Data} (hreachable : s.IsReachable)
    (pdus : List (Pdu Score Data)) : (pdus.foldl State.storePdu s).IsReachable := by
  induction pdus generalizing s with
  | nil => exact hreachable
  | cons pdu rest ih => exact ih (hreachable.storePdu pdu)

/-- A window of two frames without duplicates. -/
def windowTwo : Config where
  window := 2
  window_pos := Nat.two_pos
  allowDuplicates := false
  hasScoreField := false
  sortAscending := false

/-- A frame number with no other header field. -/
def plainFrame (number : UInt64) : Pdu Nat Unit := ⟨some number, none, ()⟩

/-- A jump over a number, a late frame and a duplicate. -/
def severalFrames : List (Pdu Nat Nat) :=
  [⟨some 3, none, 0⟩, ⟨some 5, none, 1⟩, ⟨some 4, none, 2⟩, ⟨some 5, none, 3⟩]

theorem slots_of_reachable_several_frames : ∃ s : State windowTwo Nat Nat,
    s = severalFrames.foldl State.storePdu (.initial windowTwo) ∧ s.currentFrame = 5 ∧
      s.slot 4 ≠ s.slot 5 ∧
      (s.getDuplicates 4).frames.map Pdu.data = [2] ∧
      (∀ pdu ∈ (s.getDuplicates 5).frames, getFrameNumber pdu = some 5) ∧
      ∀ slot, (s.frameStorage slot).frames.length ≤ 1 := by
  have hreachable : State.IsReachable
      (severalFrames.foldl State.storePdu (State.initial windowTwo)) :=
    State.IsReachable.foldl_storePdu .refl severalFrames
  obtain ⟨hslots, hnumbers, hsingle⟩ := slots_of_reachable hreachable
  exact ⟨_, rfl, rfl, hslots 4 (by decide) (by decide) 5 (by decide) (by decide) (by decide),
    rfl, hnumbers 5 (by decide) (by decide), hsingle rfl⟩

end GrCcsds.SortFrames
