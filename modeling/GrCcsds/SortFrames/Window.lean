import GrCcsds.SortFrames.History
import GrCcsds.Foundation.Ring

/-! # The ring of slots represents the window of the history

Every number inside the window addresses its own slot, and that slot holds what
the history keeps for the number. Moving the window by one sends the slot at
its head and discards the slot that leaves it. A complete run therefore
publishes exactly the groups that its history determines.
-/

namespace GrCcsds.SortFrames

open Utils Foundation

variable {Score Data : Type} {cfg : Config}

theorem State.slot_val (s : State cfg Score Data) (number : Nat) :
    (s.slot number : Nat) =
      Ring.index cfg.window s.storageOffset (s.currentFrame - number) := by
  simp only [State.slot, Ring.index, minusCapZero_eq_sub]

/-- Distinct frame numbers inside the window are kept in distinct slots. -/
theorem State.slot_injective (s : State cfg Score Data) {first second : Nat}
    (hfirst : first ≤ s.currentFrame) (hfirstWindow : s.currentFrame < first + cfg.window)
    (hsecond : second ≤ s.currentFrame)
    (hsecondWindow : s.currentFrame < second + cfg.window)
    (heq : s.slot first = s.slot second) : first = second := by
  have hindex := congrArg Fin.val heq
  rw [s.slot_val, s.slot_val] at hindex
  have hback := Ring.index_injective s.storageOffset.isLt (by omega) (by omega) hindex
  omega

/-- The number that has just left the window shares the slot of its head. -/
theorem State.slot_left_window (s : State cfg Score Data)
    (hleft : cfg.window ≤ s.currentFrame) :
    s.slot (s.currentFrame - cfg.window) = s.slot s.currentFrame := by
  apply Fin.ext
  rw [s.slot_val, s.slot_val, Nat.sub_sub_self hleft, Nat.sub_self,
    Ring.index_size s.storageOffset.isLt, Ring.index_zero s.storageOffset.isLt]

theorem State.getDuplicates_setDuplicates_self (s : State cfg Score Data) (number : Nat)
    (dups : FrameDuplicates Score Data) :
    (s.setDuplicates number dups).getDuplicates number = dups :=
  Function.update_self _ _ _

theorem State.getDuplicates_setDuplicates_of_ne (s : State cfg Score Data)
    {first second : Nat} (dups : FrameDuplicates Score Data)
    (hne : s.slot second ≠ s.slot first) :
    (s.setDuplicates first dups).getDuplicates second = s.getDuplicates second :=
  Function.update_of_ne hne _ _

@[simp] theorem State.sendFrame_currentFrame (s : State cfg Score Data) (number : Nat) :
    (s.sendFrame number).currentFrame = s.currentFrame := rfl

theorem State.sendFrame_out (s : State cfg Score Data) (number : Nat) :
    (s.sendFrame number).out = s.out ++ (s.getDuplicates number).frames.map .pdu := rfl

/-- Sending one slot leaves the other slots as they are. -/
theorem State.getDuplicates_sendFrame_of_ne (s : State cfg Score Data)
    {sent number : Nat} (hne : s.slot number ≠ s.slot sent) :
    (s.sendFrame sent).getDuplicates number = s.getDuplicates number :=
  Function.update_of_ne hne _ _

/-- A slot has no frames after it has been sent. -/
theorem State.getDuplicates_sendFrame_self (s : State cfg Score Data) {sent number : Nat}
    (heq : s.slot number = s.slot sent) :
    ((s.sendFrame sent).getDuplicates number).frames = [] := by
  have hcell : (s.sendFrame sent).getDuplicates number =
      { s.getDuplicates sent with frames := [] } := by
    change Function.update s.frameStorage (s.slot sent)
      { s.getDuplicates sent with frames := [] } (s.slot number) = _
    rw [heq, Function.update_self]
  rw [hcell]

/-- Two slots with the same frames, equal in every member unless empty. -/
def FrameDuplicates.Agrees (first second : FrameDuplicates Score Data) : Prop :=
  first.frames = second.frames ∧ (second.frames ≠ [] → first = second)

theorem FrameDuplicates.Agrees.refl (dups : FrameDuplicates Score Data) :
    dups.Agrees dups :=
  ⟨rfl, fun _ => rfl⟩

/-- The state in which one window step resets the slot of its new head. -/
def State.sentHead (s : State cfg Score Data) : State cfg Score Data :=
  if s.currentFrame ≥ cfg.window then s.sendFrame (s.currentFrame - cfg.window) else s

theorem State.sentHead_storageOffset (s : State cfg Score Data) :
    s.sentHead.storageOffset = s.storageOffset := by
  unfold State.sentHead
  split <;> rfl

theorem State.sentHead_slot (s : State cfg Score Data) (number : Nat) :
    s.sentHead.slot number = s.slot number := by
  unfold State.sentHead
  split <;> rfl

section Advance

variable [Zero Score]

/-- Numbers that stay in the window keep their slots. -/
theorem State.slot_advanceOnce (s : State cfg Score Data) {number : Nat}
    (hle : number ≤ s.currentFrame) (hwindow : s.currentFrame + 1 < number + cfg.window) :
    s.advanceOnce.slot number = s.slot number := by
  have hback : s.currentFrame + 1 - number = s.currentFrame - number + 1 := by omega
  have hlt : s.currentFrame - number < cfg.window := by omega
  apply Fin.ext
  rw [State.slot_val, State.slot_val]
  change Ring.index cfg.window ((s.sentHead.storageOffset + 1) % cfg.window)
    (s.currentFrame + 1 - number) = _
  rw [s.sentHead_storageOffset, hback, Ring.index_advance s.storageOffset.isLt hlt]

theorem State.slot_advanceOnce_head (s : State cfg Score Data) :
    s.advanceOnce.slot (s.currentFrame + 1) = s.advanceOnce.storageOffset := by
  apply Fin.ext
  rw [State.slot_val]
  change Ring.index cfg.window s.advanceOnce.storageOffset
    (s.currentFrame + 1 - (s.currentFrame + 1)) = _
  rw [Nat.sub_self, Ring.index_zero s.advanceOnce.storageOffset.isLt]

/-- The new head of the window starts with an empty slot. -/
theorem State.getDuplicates_advanceOnce_head (s : State cfg Score Data) :
    s.advanceOnce.getDuplicates (s.currentFrame + 1) = .empty := by
  rw [State.getDuplicates, s.slot_advanceOnce_head]
  exact Function.update_self _ _ _

/-- The reset of the new head does not touch the numbers that stay. -/
theorem State.getDuplicates_advanceOnce (s : State cfg Score Data) {number : Nat}
    (hle : number ≤ s.currentFrame) (hwindow : s.currentFrame + 1 < number + cfg.window) :
    s.advanceOnce.getDuplicates number = s.sentHead.getDuplicates number := by
  have hne : s.advanceOnce.slot number ≠ s.advanceOnce.storageOffset := by
    intro heq
    have hsame : number = s.currentFrame + 1 :=
      s.advanceOnce.slot_injective (Nat.le_succ_of_le hle) hwindow le_rfl
        (Nat.lt_add_of_pos_right cfg.window_pos) (heq.trans s.slot_advanceOnce_head.symm)
    exact absurd hle (by omega)
  have hcell : s.advanceOnce.getDuplicates number =
      s.sentHead.frameStorage (s.advanceOnce.slot number) := Function.update_of_ne hne _ _
  rw [hcell, s.slot_advanceOnce hle hwindow, State.getDuplicates, s.sentHead_slot]

theorem State.advanceBy_currentFrame (count : Nat) (s : State cfg Score Data) :
    (s.advanceBy count).currentFrame = s.currentFrame + count := by
  induction count generalizing s with
  | zero => rfl
  | succ count ih =>
      rw [State.advanceBy, ih]
      change s.currentFrame + 1 + count = _
      omega

theorem State.advanceTo_currentFrame (s : State cfg Score Data) (number : Nat) :
    (s.advanceTo number).currentFrame = max s.currentFrame number := by
  rw [State.advanceTo, State.advanceBy_currentFrame]
  omega

end Advance

section Refinement

variable [Zero Score]

theorem FrameDuplicates.agrees_empty {dups : FrameDuplicates Score Data}
    (hframes : dups.frames = []) : dups.Agrees .empty :=
  ⟨hframes, fun hne => absurd rfl hne⟩

variable [LT Score] [DecidableLT Score]

/-- The members of an empty slot other than its frames are irrelevant. -/
theorem addDuplicate_congr {first second : FrameDuplicates Score Data}
    (hagrees : first.Agrees second) (pdu : Pdu Score Data) :
    addDuplicate cfg first pdu = addDuplicate cfg second pdu := by
  by_cases hempty : second.frames = []
  · have hfirst : first.frames = [] := hagrees.1.trans hempty
    simp [addDuplicate, hfirst, hempty]
  · rw [hagrees.2 hempty]

/-- The state represents a history: numbers in the window have their held PDUs
in their slots, and every number that the window has passed has been sent. -/
structure Tracks (history : List (Arrival Score Data)) (s : State cfg Score Data) : Prop where
  bound : ∀ a ∈ history, a.number ≤ s.currentFrame
  late_lt : ∀ a ∈ history, a.late = true → a.number < s.currentFrame
  slots : ∀ number, number ≤ s.currentFrame → s.currentFrame < number + cfg.window →
    (s.getDuplicates number).Agrees
      (collect cfg (held cfg history s.currentFrame number))
  out : s.out = (sentByAdvance cfg history s.currentFrame).map .pdu

theorem tracks_initial : Tracks ([] : List (Arrival Score Data)) (State.initial cfg) where
  bound := by simp
  late_lt := by simp
  slots := by
    intro number _ _
    exact FrameDuplicates.Agrees.refl _
  out := by simp [State.initial, sentByAdvance]

/-- The head of the window is sent when it is a full window above zero, and its
slot is empty afterwards. -/
theorem Tracks.sentHead_slots {history : List (Arrival Score Data)} {s : State cfg Score Data}
    (htracks : Tracks history s) {number : Nat} (hle : number ≤ s.currentFrame)
    (hwindow : s.currentFrame < number + cfg.window) :
    (s.sentHead.getDuplicates number).Agrees
      (collect cfg (held cfg history (s.currentFrame + 1) number)) := by
  have hslots := htracks.slots number hle hwindow
  unfold State.sentHead
  split
  next hfull =>
    have hleft := s.slot_left_window hfull
    rcases Nat.lt_or_ge number s.currentFrame with hlt | hge
    · have hne : s.slot number ≠ s.slot (s.currentFrame - cfg.window) := by
        rw [hleft]
        intro heq
        have hsame := s.slot_injective hle hwindow le_rfl
          (Nat.lt_add_of_pos_right cfg.window_pos) heq
        exact absurd hlt (by omega)
      have hheld : held cfg history (s.currentFrame + 1) number =
          held cfg history s.currentFrame number := by
        simp only [held, Nat.ne_of_lt hlt, Nat.ne_of_lt (Nat.lt_succ_of_lt hlt)]
      rw [s.getDuplicates_sendFrame_of_ne hne, hheld]
      exact hslots
    · have hnumber : number = s.currentFrame := Nat.le_antisymm hle hge
      subst hnumber
      have hnone : held cfg history (s.currentFrame + 1) s.currentFrame = [] := by
        rw [held, List.map_eq_nil_iff, List.filter_eq_nil_iff]
        intro a ha hcond
        obtain ⟨hnumber, hnew | hsmall | hlate⟩ := of_decide_eq_true hcond
        · omega
        · omega
        · exact absurd (htracks.late_lt a ha hlate) (by omega)
      rw [hnone]
      exact FrameDuplicates.agrees_empty (s.getDuplicates_sendFrame_self hleft.symm)
  next hsmall =>
    have hheld : held cfg history (s.currentFrame + 1) number =
        held cfg history s.currentFrame number := by
      have hlow : number < cfg.window := by omega
      simp only [held, hlow, true_or, or_true, and_true]
    rw [hheld]
    exact hslots

/-- One window step keeps the representation of the history: it sends the
number at the head of the window and resets the slot of the number that
leaves it. -/
theorem Tracks.advanceOnce {history : List (Arrival Score Data)} {s : State cfg Score Data}
    (htracks : Tracks history s) : Tracks history s.advanceOnce where
  bound := fun a ha => Nat.le_succ_of_le (htracks.bound a ha)
  late_lt := fun a ha hlate => Nat.lt_succ_of_lt (htracks.late_lt a ha hlate)
  slots := by
    intro number hle hwindow
    change number ≤ s.currentFrame + 1 at hle
    change s.currentFrame + 1 < number + cfg.window at hwindow
    change (s.advanceOnce.getDuplicates number).Agrees
      (collect cfg (held cfg history (s.currentFrame + 1) number))
    rcases Nat.lt_or_ge s.currentFrame number with hnew | hold
    · have hnumber : number = s.currentFrame + 1 := by omega
      subst hnumber
      have hnone : held cfg history (s.currentFrame + 1) (s.currentFrame + 1) = [] := by
        rw [held, List.map_eq_nil_iff, List.filter_eq_nil_iff]
        intro a ha hcond
        have hbound := htracks.bound a ha
        exact absurd (of_decide_eq_true hcond).1 (by omega)
      rw [hnone, s.getDuplicates_advanceOnce_head]
      exact FrameDuplicates.Agrees.refl _
    · rw [s.getDuplicates_advanceOnce hold hwindow]
      exact htracks.sentHead_slots hold (by omega)
  out := by
    change s.sentHead.out = (sentByAdvance cfg history (s.currentFrame + 1)).map .pdu
    unfold State.sentHead
    split
    next hfull =>
      have hcount : s.currentFrame + 1 - cfg.window = s.currentFrame - cfg.window + 1 := by
        omega
      have hlast : cfg.window + (s.currentFrame - cfg.window) = s.currentFrame := by omega
      have hframes : (s.getDuplicates s.currentFrame).frames =
          select cfg (onTime history s.currentFrame) := by
        rw [(htracks.slots s.currentFrame le_rfl
          (Nat.lt_add_of_pos_right cfg.window_pos)).1, select]
        congr 2
        simp only [held, onTime, true_or, and_true]
        congr 1
        apply List.filter_congr
        intro a ha
        rw [decide_eq_decide]
        refine ⟨fun hnumber => ⟨hnumber, ?_⟩, And.left⟩
        by_contra hlate
        have hlt := htracks.late_lt a ha (by simpa using hlate)
        omega
      rw [s.sendFrame_out, State.getDuplicates, s.slot_left_window hfull, htracks.out]
      change _ ++ (s.getDuplicates s.currentFrame).frames.map _ = _
      rw [hframes, sentByAdvance, sentByAdvance, hcount, List.range'_concat,
        List.flatMap_append, List.map_append, Nat.one_mul, hlast]
      simp only [List.flatMap_cons, List.flatMap_nil, List.append_nil]
    next hsmall =>
      have hnone : s.currentFrame - cfg.window = 0 := by omega
      have hnone' : s.currentFrame + 1 - cfg.window = 0 := by omega
      rw [htracks.out, sentByAdvance, sentByAdvance, hnone, hnone']

theorem Tracks.advanceBy {history : List (Arrival Score Data)} {s : State cfg Score Data}
    (htracks : Tracks history s) (count : Nat) : Tracks history (s.advanceBy count) := by
  induction count generalizing s with
  | zero => exact htracks
  | succ count ih => exact ih htracks.advanceOnce

end Refinement

end GrCcsds.SortFrames
