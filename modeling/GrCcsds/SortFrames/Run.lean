import GrCcsds.SortFrames.Window
import Mathlib.Data.List.Basic

/-! # Complete runs of the frame sorting block

The messages that a run publishes are those its history determines: the groups
sent by the advancing window, then the groups sent by the final flush. This
holds for both ways in which a stream ends.
-/

namespace GrCcsds.SortFrames

open Utils

variable {Score Data : Type} {cfg : Config}

/-- No PDU carries a frame number whose sum with the window size wraps. -/
def NoWrap (cfg : Config) (pdus : List (Pdu Score Data)) : Prop :=
  ∀ pdu ∈ pdus, ∀ number, getFrameNumber pdu = some number → number + cfg.window < size64

theorem getFrameNumber_of_sortKey {pdu : Pdu Score Data} {number : Nat}
    (hkey : sortKey cfg pdu = some number) : getFrameNumber pdu = some number := by
  unfold sortKey at hkey
  split at hkey
  · cases hkey
  · exact hkey

theorem newestAfter_eq (newest : Nat) (pdu : Pdu Score Data) :
    newestAfter cfg newest pdu = newest ∨ sortKey cfg pdu = some (newestAfter cfg newest pdu) := by
  unfold newestAfter
  cases hkey : sortKey cfg pdu with
  | none => exact Or.inl rfl
  | some number =>
      rcases Nat.le_total number newest with hle | hge
      · exact Or.inl (Nat.max_eq_left hle)
      · exact Or.inr (congrArg some (Nat.max_eq_right hge).symm)

/-- Without wrapping sums the successor of the newest number does not wrap. -/
theorem foldl_newestAfter_lt {pdus : List (Pdu Score Data)} (hwrap : NoWrap cfg pdus)
    {newest : Nat} (hnewest : newest + 1 < size64) :
    pdus.foldl (newestAfter cfg) newest + 1 < size64 := by
  induction pdus generalizing newest with
  | nil => exact hnewest
  | cons pdu rest ih =>
      apply ih (fun p hp => hwrap p (List.mem_cons_of_mem _ hp))
      rcases newestAfter_eq newest pdu with heq | hkey
      · rw [heq]
        exact hnewest
      · have hlt := hwrap pdu List.mem_cons_self _ (getFrameNumber_of_sortKey hkey)
        exact Nat.lt_of_le_of_lt (Nat.add_le_add_left cfg.window_pos _) hlt

/-- The loop of the flush sends every number from its start up to the newest
one and then ends. -/
theorem State.flushLoop_eq (fuel start : Nat) (s : State cfg Score Data)
    (hstart : start ≤ s.currentFrame + 1) (hwindow : s.currentFrame < start + cfg.window)
    (hsize : s.currentFrame + 1 < size64) (hfuel : s.currentFrame + 1 - start < fuel) :
    ∃ t, s.flushLoop fuel start = some t ∧
      t.out = s.out ++ ((List.range' start (s.currentFrame + 1 - start)).flatMap
        fun number => (s.getDuplicates number).frames).map .pdu := by
  induction fuel generalizing start s with
  | zero => exact absurd hfuel (Nat.not_lt_zero _)
  | succ fuel ih =>
      by_cases hmore : start ≤ s.currentFrame
      · have hmod : (start + 1) % size64 = start + 1 := Nat.mod_eq_of_lt (by omega)
        have hcount : s.currentFrame + 1 - start = s.currentFrame + 1 - (start + 1) + 1 := by
          omega
        obtain ⟨t, hloop, hout⟩ := ih (start + 1) (s.sendFrame start)
          (by simpa using hmore) (by simpa using Nat.lt_of_lt_of_le hwindow (by omega))
          hsize (by simp only [State.sendFrame_currentFrame]; omega)
        have hframes : ∀ number ∈ List.range' (start + 1) (s.currentFrame + 1 - (start + 1)),
            ((s.sendFrame start).getDuplicates number).frames =
              (s.getDuplicates number).frames := by
          intro number hnumber
          obtain ⟨hge, hlt⟩ := List.mem_range'_1.mp hnumber
          have hne : s.slot number ≠ s.slot start := by
            intro heq
            have hsame := s.slot_injective (by omega) (by omega) hmore hwindow heq
            omega
          rw [s.getDuplicates_sendFrame_of_ne hne]
        refine ⟨t, ?_, ?_⟩
        · rw [State.flushLoop, if_pos hmore, hmod]
          exact hloop
        · rw [hout, s.sendFrame_out, hcount, List.range'_succ, List.flatMap_cons,
            List.map_append, ← List.append_assoc]
          congr 2
          exact List.flatMap_congr hframes
      · have hcount : s.currentFrame + 1 - start = 0 := by omega
        refine ⟨s, ?_, ?_⟩
        · rw [State.flushLoop, if_neg hmore]
        · simp [hcount]

theorem beforeEof_map_pdu (pdus : List (Pdu Score Data)) :
    beforeEof (pdus.map .pdu) = pdus := by
  induction pdus with
  | nil => rfl
  | cons pdu rest ih => exact congrArg (List.cons pdu) ih

theorem beforeEof_map_pdu_append_eof (pdus : List (Pdu Score Data)) :
    beforeEof (pdus.map .pdu ++ [.eof]) = pdus := by
  induction pdus with
  | nil => rfl
  | cons pdu rest ih => exact congrArg (List.cons pdu) ih

section Run

variable [Zero Score]

theorem State.advanceBy_flags (count : Nat) (s : State cfg Score Data) :
    (s.advanceBy count).stopped = s.stopped ∧ (s.advanceBy count).flushed = s.flushed := by
  induction count generalizing s with
  | zero => exact ⟨rfl, rfl⟩
  | succ count ih =>
      have hstep : s.advanceOnce.stopped = s.stopped ∧ s.advanceOnce.flushed = s.flushed := by
        change s.sentHead.stopped = _ ∧ s.sentHead.flushed = _
        unfold State.sentHead
        split <;> exact ⟨rfl, rfl⟩
      exact ⟨(ih s.advanceOnce).1.trans hstep.1, (ih s.advanceOnce).2.trans hstep.2⟩

variable [LT Score] [DecidableLT Score]

/-- The effect of a PDU, by the number under which it takes part in sorting. -/
theorem State.storePdu_eq (s : State cfg Score Data) {pdu : Pdu Score Data}
    (hwrap : ∀ number, getFrameNumber pdu = some number → number + cfg.window < size64) :
    s.storePdu pdu =
      match arrival cfg s.currentFrame pdu with
      | none => s
      | some a =>
        (s.advanceTo a.number).setDuplicates a.number
          (addDuplicate cfg ((s.advanceTo a.number).getDuplicates a.number) pdu) := by
  unfold State.storePdu arrival sortKey
  cases hnumber : getFrameNumber pdu with
  | none => split <;> simp_all
  | some number =>
      have hmod := Nat.mod_eq_of_lt (hwrap number hnumber)
      by_cases hscore : ((getFrameScore cfg pdu).isNone && cfg.hasScoreField) = true
      · simp [hscore]
      · by_cases hold : number + cfg.window ≤ s.currentFrame
        · simp [hscore, hmod, hold]
        · simp [hscore, hmod, hold]

/-- The newest frame number only depends on the sort keys seen so far. -/
theorem State.storePdu_currentFrame (s : State cfg Score Data) {pdu : Pdu Score Data}
    (hwrap : ∀ number, getFrameNumber pdu = some number → number + cfg.window < size64) :
    (s.storePdu pdu).currentFrame = newestAfter cfg s.currentFrame pdu := by
  rw [s.storePdu_eq hwrap]
  unfold arrival newestAfter
  cases hkey : sortKey cfg pdu with
  | none => rfl
  | some number =>
      by_cases hold : number + cfg.window ≤ s.currentFrame
      · simp only [hold, if_true]
        omega
      · simp only [hold, if_false]
        exact s.advanceTo_currentFrame number

/-- Storing a PDU extends the represented history by its arrival. -/
theorem Tracks.storePdu {history : List (Arrival Score Data)} {s : State cfg Score Data}
    (htracks : Tracks history s) {pdu : Pdu Score Data}
    (hwrap : ∀ number, getFrameNumber pdu = some number → number + cfg.window < size64) :
    Tracks (history ++ (arrival cfg s.currentFrame pdu).toList) (s.storePdu pdu) := by
  rw [s.storePdu_eq hwrap]
  cases harrival : arrival cfg s.currentFrame pdu with
  | none => simpa using htracks
  | some a =>
      obtain ⟨hpdu, _, hwindow, hlate⟩ := arrival_number harrival
      have hadvanced : Tracks history (s.advanceTo a.number) := htracks.advanceBy _
      have hnewest := s.advanceTo_currentFrame a.number
      have hcurrent : a.number ≤ (s.advanceTo a.number).currentFrame := by omega
      have hinside : (s.advanceTo a.number).currentFrame < a.number + cfg.window := by
        have hpos := cfg.window_pos
        omega
      simp only [Option.toList_some]
      refine ⟨?_, ?_, ?_, ?_⟩
      · intro b hb
        rcases List.mem_append.mp hb with hb | hb
        · exact hadvanced.bound b hb
        · rw [List.mem_singleton.mp hb]
          exact hcurrent
      · intro b hb hblate
        rcases List.mem_append.mp hb with hb | hb
        · exact hadvanced.late_lt b hb hblate
        · rw [List.mem_singleton.mp hb, hlate] at hblate
          have hlt := of_decide_eq_true hblate
          rw [List.mem_singleton.mp hb]
          change a.number < (s.advanceTo a.number).currentFrame
          omega
      · intro number hle hnumberWindow
        change number ≤ (s.advanceTo a.number).currentFrame at hle
        change (s.advanceTo a.number).currentFrame < number + cfg.window at hnumberWindow
        have hslots := hadvanced.slots number hle hnumberWindow
        change FrameDuplicates.Agrees _
          (collect cfg (held cfg (history ++ [a]) (s.advanceTo a.number).currentFrame number))
        rw [held_eq_filter_append]
        by_cases hsame : a.number = number
        · subst hsame
          -- a late number keeps its place in the window, any other is the newest
          have hrepresented : a.number = (s.advanceTo a.number).currentFrame ∨
              a.number < cfg.window ∨ a.late = true := by
            rw [hlate, decide_eq_true_iff]
            omega
          rw [if_pos ⟨rfl, hrepresented⟩, hpdu, collect_append_singleton,
            State.getDuplicates_setDuplicates_self, addDuplicate_congr hslots]
          exact FrameDuplicates.Agrees.refl _
        · have hslot : (s.advanceTo a.number).slot number ≠ (s.advanceTo a.number).slot a.number :=
            fun heq => hsame (State.slot_injective _ hle hnumberWindow hcurrent hinside heq).symm
          rw [if_neg (fun hcond => hsame hcond.1), List.append_nil,
            State.getDuplicates_setDuplicates_of_ne _ _ hslot]
          exact hslots
      · change (s.advanceTo a.number).out = (sentByAdvance cfg (history ++ [a])
          (s.advanceTo a.number).currentFrame).map .pdu
        rw [hadvanced.out, sentByAdvance, sentByAdvance]
        congr 1
        apply List.flatMap_congr
        intro number hnumber
        obtain ⟨hwindowed, hbelow⟩ := List.mem_range'_1.mp hnumber
        have hnone : ¬ (a.number = number ∧ a.late = false) := by
          rintro ⟨rfl, hontime⟩
          rw [hlate, decide_eq_false_iff_not] at hontime
          omega
        rw [onTime_append_singleton, if_neg hnone, List.append_nil]

theorem State.storePdu_flags (s : State cfg Score Data) {pdu : Pdu Score Data}
    (hwrap : ∀ number, getFrameNumber pdu = some number → number + cfg.window < size64) :
    (s.storePdu pdu).stopped = s.stopped ∧ (s.storePdu pdu).flushed = s.flushed := by
  rw [s.storePdu_eq hwrap]
  split
  · exact ⟨rfl, rfl⟩
  · exact s.advanceBy_flags _

/-- Delivering PDUs always returns and extends the represented history by all
their arrivals. -/
theorem Tracks.deliver (fuel : Nat) {history : List (Arrival Score Data)}
    {s : State cfg Score Data} (htracks : Tracks history s) {pdus : List (Pdu Score Data)}
    (hwrap : NoWrap cfg pdus) :
    ∃ t, s.deliver fuel (pdus.map .frame) = some t ∧
      Tracks (history ++ arrivalsFrom cfg s.currentFrame pdus) t ∧
      t.currentFrame = pdus.foldl (newestAfter cfg) s.currentFrame ∧
      t.stopped = s.stopped ∧ t.flushed = s.flushed := by
  induction pdus generalizing history s with
  | nil => exact ⟨s, rfl, by simpa [arrivalsFrom] using htracks, rfl, rfl, rfl⟩
  | cons pdu rest ih =>
      have hpdu := hwrap pdu List.mem_cons_self
      have hrest : NoWrap cfg rest := fun p hp => hwrap p (List.mem_cons_of_mem _ hp)
      obtain ⟨t, hdeliver, ht, hcurrent, hflags⟩ := ih (htracks.storePdu hpdu) hrest
      rw [s.storePdu_currentFrame hpdu] at ht hcurrent
      refine ⟨t, hdeliver, ?_, hcurrent, ?_⟩
      · simpa only [arrivalsFrom, List.append_assoc] using ht
      · rw [(s.storePdu_flags hpdu).1, (s.storePdu_flags hpdu).2] at hflags
        exact hflags

/-- Flushing returns and sends what the history holds for every number still in
the window. -/
theorem Tracks.flushFrames {history : List (Arrival Score Data)} {s : State cfg Score Data}
    (htracks : Tracks history s) {fuel : Nat} (hfuel : cfg.window < fuel)
    (hsize : s.currentFrame + 1 < size64) :
    ∃ t, s.flushFrames fuel = some t ∧
      t.out = (sentByAdvance cfg history s.currentFrame ++
        sentByFlush cfg history s.currentFrame).map .pdu := by
  have hpos := cfg.window_pos
  obtain ⟨t, hloop, hout⟩ := s.flushLoop_eq fuel (s.currentFrame + 1 - cfg.window)
    (by omega) (by omega) hsize (by omega)
  refine ⟨{ t with flushed := true }, ?_, ?_⟩
  · rw [State.flushFrames, minusCapZero_eq_sub, Nat.mod_eq_of_lt hsize, hloop]
    rfl
  · change t.out = _
    rw [hout, htracks.out, List.map_append, sentByFlush]
    congr 2
    apply List.flatMap_congr
    intro number hnumber
    obtain ⟨hge, hlt⟩ := List.mem_range'_1.mp hnumber
    exact (htracks.slots number (by omega) (by omega)).1

/-- The messages of a complete run, for both ways of ending it. -/
theorem run_published (fuel : Nat) (hfuel : cfg.window < fuel) {pdus : List (Pdu Score Data)}
    (hwrap : NoWrap cfg pdus) (ending : Ending) :
    ∃ s, run cfg fuel pdus ending = some s ∧
      s.published = sentByAdvance cfg (arrivals cfg pdus) (newestOf cfg pdus) ++
        sentByFlush cfg (arrivals cfg pdus) (newestOf cfg pdus) := by
  have hinitial : Tracks ([] : List (Arrival Score Data)) (State.initial cfg) := tracks_initial
  obtain ⟨s, hdeliver, htracks, hcurrent, _, hflushed⟩ := hinitial.deliver fuel hwrap
  have hsize : s.currentFrame + 1 < size64 := by
    rw [hcurrent]
    exact foldl_newestAfter_lt hwrap (by change 0 + 1 < size64; decide)
  cases ending with
  | eof =>
      obtain ⟨t, hflush, hout⟩ := htracks.flushFrames hfuel hsize
      rw [hcurrent] at hout
      refine ⟨{ t with out := t.out ++ [.eof], stopped := true }, ?_, ?_⟩
      · rw [run, hdeliver, Option.bind_some, State.finish, State.storeFrame, hflush]
        rfl
      · rw [State.published, hout]
        exact beforeEof_map_pdu_append_eof _
  | stopAndWork =>
      have hstop : Tracks ([] ++ arrivalsFrom cfg (State.initial cfg).currentFrame pdus) s.stop :=
        ⟨htracks.bound, htracks.late_lt, htracks.slots, htracks.out⟩
      obtain ⟨t, hflush, hout⟩ := hstop.flushFrames hfuel hsize
      change t.out = (sentByAdvance cfg _ s.currentFrame ++
        sentByFlush cfg _ s.currentFrame).map .pdu at hout
      rw [hcurrent] at hout
      have hguard : (s.stop.stopped && !s.stop.flushed) = true := by
        change (true && !s.flushed) = true
        rw [hflushed]
        rfl
      refine ⟨t, ?_, ?_⟩
      · rw [run, hdeliver, Option.bind_some, State.finish, State.work, if_pos hguard, hflush]
        rfl
      · rw [State.published, hout]
        exact beforeEof_map_pdu _

end Run

end GrCcsds.SortFrames
