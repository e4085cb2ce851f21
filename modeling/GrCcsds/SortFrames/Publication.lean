import GrCcsds.SortFrames.Run
import GrCcsds.Foundation.Grouping
import Mathlib.Algebra.GroupWithZero.Nat

/-! # Which frames are published, and in which order

The advancing window sends the slot of its head, not the slot that leaves it.
A frame that has been passed by a full window is therefore lost unless it was
sent as the newest frame, and a frame sent that way overtakes the older ones
that are still in the window.
-/

namespace GrCcsds.SortFrames

open Utils Foundation

variable {Score Data : Type} {cfg : Config}

/-- Whether the block takes a PDU in: it has the sort field and, if configured,
the score field, and its number is not below the current window. -/
def State.accepts (s : State cfg Score Data) (pdu : Pdu Score Data) : Bool :=
  match sortKey cfg pdu with
  | none => false
  | some number => decide (s.currentFrame < number + cfg.window)

/-- The PDUs of a stream that are taken in, in the order of their arrival. -/
def State.accepted [Zero Score] [LT Score] [DecidableLT Score] (s : State cfg Score Data) :
    List (Pdu Score Data) → List (Pdu Score Data)
  | [] => []
  | pdu :: rest => (if s.accepts pdu then [pdu] else []) ++ (s.storePdu pdu).accepted rest

/-- Frames that the window has passed arrived on time and were not below the
window size. -/
def NoneLost (cfg : Config) (pdus : List (Pdu Score Data)) : Prop :=
  ∀ a ∈ arrivals cfg pdus, a.number + cfg.window ≤ newestOf cfg pdus →
    cfg.window ≤ a.number ∧ a.late = false

/-- No frame that is sent by the advancing window is newer than a frame that
stays in the window until the end, which is one that is late or below the
window size. -/
def NoneOvertaken (cfg : Config) (pdus : List (Pdu Score Data)) : Prop :=
  ∀ a ∈ arrivals cfg pdus, ∀ b ∈ arrivals cfg pdus,
    cfg.window ≤ a.number → a.number < newestOf cfg pdus → a.late = false →
    newestOf cfg pdus < b.number + cfg.window → b.number < a.number →
    cfg.window ≤ b.number ∧ b.late = false

theorem getFrameNumber_of_mem_arrivals {newest : Nat} {pdus : List (Pdu Score Data)}
    {a : Arrival Score Data} (ha : a ∈ arrivalsFrom cfg newest pdus) :
    getFrameNumber a.pdu = some a.number := by
  induction pdus generalizing newest with
  | nil => cases ha
  | cons pdu rest ih =>
      rcases List.mem_append.mp ha with hfirst | hrest
      · obtain ⟨hpdu, hnumber, _⟩ := arrival_number (Option.mem_toList.mp hfirst)
        rw [hpdu, hnumber]
      · exact ih hrest

/-- The PDUs of a group carry the number of the group. -/
theorem getFrameNumber_of_mem_filter {pdus : List (Pdu Score Data)} {number : Nat}
    {keep : Arrival Score Data → Bool} (hkeep : ∀ a, keep a = true → a.number = number)
    {pdu : Pdu Score Data} (hmem : pdu ∈ ((arrivals cfg pdus).filter keep).map Arrival.pdu) :
    getFrameNumber pdu = some number := by
  obtain ⟨a, ha, rfl⟩ := List.mem_map.mp hmem
  obtain ⟨harrival, hkept⟩ := List.mem_filter.mp ha
  rw [getFrameNumber_of_mem_arrivals harrival, hkeep a hkept]

theorem getFrameNumber_of_mem_onTime {pdus : List (Pdu Score Data)} {number : Nat}
    {pdu : Pdu Score Data} (hmem : pdu ∈ onTime (arrivals cfg pdus) number) :
    getFrameNumber pdu = some number :=
  getFrameNumber_of_mem_filter (fun _ hkeep => (of_decide_eq_true hkeep).1) hmem

theorem getFrameNumber_of_mem_held {pdus : List (Pdu Score Data)} {newest number : Nat}
    {pdu : Pdu Score Data} (hmem : pdu ∈ held cfg (arrivals cfg pdus) newest number) :
    getFrameNumber pdu = some number :=
  getFrameNumber_of_mem_filter (fun _ hkeep => (of_decide_eq_true hkeep).1) hmem

theorem noWrap_of_forall {pdus : List (Pdu Score Data)}
    (hall : ∀ pdu ∈ pdus, (getFrameNumber pdu).getD 0 + cfg.window < size64) :
    NoWrap cfg pdus := by
  intro pdu hpdu number hnumber
  have hlt := hall pdu hpdu
  rw [hnumber] at hlt
  exact hlt

/-- The configuration of the block's own tests: a window of five frames and no
score field. -/
def windowFive (allowDuplicates : Bool) : Config where
  window := 5
  window_pos := Nat.succ_pos 4
  allowDuplicates := allowDuplicates
  hasScoreField := false
  sortAscending := false

/-- A PDU that only has a frame number. -/
def numbered (number : UInt64) : Pdu Nat Unit := ⟨some number, none, ()⟩

/-- A frame number with an arrival that the filter keeps has a group to send. -/
theorem mem_map_pdu_filter {pdus : List (Pdu Score Data)} {keep : Arrival Score Data → Bool}
    {a : Arrival Score Data} (ha : a ∈ arrivals cfg pdus) (hkeep : keep a = true) :
    ((arrivals cfg pdus).filter keep).map Arrival.pdu ≠ [] := by
  intro hnil
  have hmem := List.mem_map_of_mem (f := Arrival.pdu) (List.mem_filter.mpr ⟨ha, hkeep⟩)
  rw [hnil] at hmem
  cases hmem

section Publication

variable [Zero Score] [LT Score] [DecidableLT Score]

/-- The PDUs that the block takes in are those of the history. -/
theorem State.accepted_eq (s : State cfg Score Data) {pdus : List (Pdu Score Data)}
    (hwrap : NoWrap cfg pdus) :
    s.accepted pdus = (arrivalsFrom cfg s.currentFrame pdus).map Arrival.pdu := by
  induction pdus generalizing s with
  | nil => rfl
  | cons pdu rest ih =>
      have hpdu := hwrap pdu List.mem_cons_self
      have hrest : NoWrap cfg rest := fun p hp => hwrap p (List.mem_cons_of_mem _ hp)
      have hfirst : (if s.accepts pdu then [pdu] else []) =
          (arrival cfg s.currentFrame pdu).toList.map Arrival.pdu := by
        unfold State.accepts arrival
        cases sortKey cfg pdu with
        | none => rfl
        | some number =>
            by_cases hwindow : s.currentFrame < number + cfg.window
            · simp [hwindow, Nat.not_le.mpr hwindow]
            · simp [hwindow, Nat.le_of_not_lt hwindow]
      rw [State.accepted, arrivalsFrom, List.map_append, hfirst, ih _ hrest,
        s.storePdu_currentFrame hpdu]

/-- Numbers in the history do not exceed the newest one, and late ones are
below it. -/
theorem arrivals_bound {pdus : List (Pdu Score Data)} (hwrap : NoWrap cfg pdus)
    {a : Arrival Score Data} (ha : a ∈ arrivals cfg pdus) :
    a.number ≤ newestOf cfg pdus ∧ (a.late = true → a.number < newestOf cfg pdus) := by
  have hinitial : Tracks ([] : List (Arrival Score Data)) (State.initial cfg) := tracks_initial
  obtain ⟨s, _, htracks, hcurrent, _⟩ := hinitial.deliver 0 hwrap
  have hbound := htracks.bound a ha
  have hlate := htracks.late_lt a ha
  rw [hcurrent] at hbound hlate
  exact ⟨hbound, hlate⟩

theorem select_of_allowDuplicates (hduplicates : cfg.allowDuplicates = true)
    (pdus : List (Pdu Score Data)) : select cfg pdus = pdus := by
  induction pdus using List.reverseRecOn with
  | nil => rfl
  | append_singleton front pdu ih =>
      rw [select, collect_append_singleton]
      rw [select] at ih
      simp only [addDuplicate, hduplicates, if_true]
      split
      · change (collect cfg front).frames ++ [pdu] = _
        rw [ih]
      · change (collect cfg front).frames ++ [pdu] = _
        rw [ih]

theorem sentByAdvance_perm (hduplicates : cfg.allowDuplicates = true)
    (history : List (Arrival Score Data)) (newest : Nat) :
    (sentByAdvance cfg history newest).Perm ((history.filter fun a =>
      cfg.window ≤ a.number ∧ a.number < newest ∧ a.late = false).map Arrival.pdu) := by
  have hgroups : sentByAdvance cfg history newest =
      ((List.range' cfg.window (newest - cfg.window)).flatMap fun number =>
        history.filter fun a => a.number = number ∧ a.late = false).map Arrival.pdu := by
    rw [List.map_flatMap]
    apply List.flatMap_congr
    intro number _
    exact select_of_allowDuplicates hduplicates _
  rw [hgroups]
  apply List.Perm.map
  apply (Grouping.flatMap_range'_filter_perm Arrival.number _ history _ _).trans
  apply List.Perm.of_eq
  apply List.filter_congr
  intro a _
  rw [decide_eq_decide]
  have hrange : cfg.window ≤ a.number →
      (a.number < cfg.window + (newest - cfg.window) ↔ a.number < newest) := by omega
  constructor
  · rintro ⟨hge, hlt, hontime⟩
    exact ⟨hge, (hrange hge).mp hlt, hontime⟩
  · rintro ⟨hge, hlt, hontime⟩
    exact ⟨hge, (hrange hge).mpr hlt, hontime⟩

theorem sentByFlush_perm (hduplicates : cfg.allowDuplicates = true)
    (history : List (Arrival Score Data)) (newest : Nat) :
    (sentByFlush cfg history newest).Perm ((history.filter fun a =>
      (newest < a.number + cfg.window ∧ a.number ≤ newest) ∧
        (a.number = newest ∨ a.number < cfg.window ∨ a.late = true)).map Arrival.pdu) := by
  have hgroups : sentByFlush cfg history newest =
      ((List.range' (newest + 1 - cfg.window)
        (newest + 1 - (newest + 1 - cfg.window))).flatMap fun number =>
        history.filter fun a => a.number = number ∧
          (a.number = newest ∨ a.number < cfg.window ∨ a.late = true)).map Arrival.pdu := by
    rw [List.map_flatMap]
    apply List.flatMap_congr
    intro number _
    rw [select_of_allowDuplicates hduplicates, held]
    congr 1
    apply List.filter_congr
    intro a _
    rw [decide_eq_decide]
    constructor
    · rintro ⟨rfl, hkept⟩
      exact ⟨rfl, hkept⟩
    · rintro ⟨rfl, hkept⟩
      exact ⟨rfl, hkept⟩
  rw [hgroups]
  apply List.Perm.map
  apply (Grouping.flatMap_range'_filter_perm Arrival.number _ history _ _).trans
  apply List.Perm.of_eq
  apply List.filter_congr
  intro a _
  rw [decide_eq_decide, ← and_assoc]
  apply and_congr_left
  intro _
  have hpos := cfg.window_pos
  omega

/-- With duplicates allowed, the published PDUs are those of the history except
for the ones lost when the window passed them. -/
theorem sent_perm (hduplicates : cfg.allowDuplicates = true)
    {history : List (Arrival Score Data)} {newest : Nat}
    (hbound : ∀ a ∈ history, a.number ≤ newest ∧ (a.late = true → a.number < newest)) :
    (sentByAdvance cfg history newest ++ sentByFlush cfg history newest).Perm
      ((history.filter fun a => a.number + cfg.window ≤ newest →
        cfg.window ≤ a.number ∧ a.late = false).map Arrival.pdu) := by
  apply ((sentByAdvance_perm hduplicates history newest).append
    (sentByFlush_perm hduplicates history newest)).trans
  rw [← List.map_append]
  apply List.Perm.map
  apply (Grouping.filter_append_filter_perm _ _ history ?_).trans
  · apply List.Perm.of_eq
    apply List.filter_congr
    intro a ha
    obtain ⟨hle, hlate⟩ := hbound a ha
    rw [decide_eq_decide]
    cases hcase : a.late with
    | true =>
        have hlt := hlate hcase
        simp only [Bool.true_eq_false, and_false, or_true, and_true, false_or, imp_false]
        omega
    | false =>
        simp only [Bool.false_eq_true, or_false, and_true]
        have hpos := cfg.window_pos
        rcases Nat.lt_or_ge newest (a.number + cfg.window) with hin | hout
        · simp only [hin, Nat.not_le.mpr hin, false_implies, iff_true, true_and]
          omega
        · simp only [hout, Nat.not_lt.mpr hout, true_implies, false_and, or_false]
          omega
  · rintro a _ ⟨hge, hlt, hontime⟩ ⟨_, hkept⟩
    rw [hontime] at hkept
    rcases hkept with hnewest | hsmall | hlate
    · omega
    · omega
    · cases hlate

/-- With duplicates allowed, the published PDUs are the accepted ones, each
exactly once, if and only if the window passes no frame that was late or below
the window size. -/
theorem published_perm_accepted_iff (hduplicates : cfg.allowDuplicates = true)
    {pdus : List (Pdu Score Data)} (hwrap : NoWrap cfg pdus) {fuel : Nat}
    (hfuel : cfg.window < fuel) (ending : Ending) :
    ∃ s, run cfg fuel pdus ending = some s ∧
      (s.published.Perm ((State.initial cfg).accepted pdus) ↔ NoneLost cfg pdus) := by
  obtain ⟨s, hrun, hpublished⟩ := run_published fuel hfuel hwrap ending
  refine ⟨s, hrun, ?_⟩
  have hsent := sent_perm hduplicates fun a ha => arrivals_bound hwrap ha
  rw [hpublished, State.accepted_eq _ hwrap]
  change List.Perm _ ((arrivals cfg pdus).map Arrival.pdu) ↔ _
  constructor
  · intro hperm a ha
    have hlength := (hsent.symm.trans hperm).length_eq
    rw [List.length_map, List.length_map, List.length_filter_eq_length_iff] at hlength
    exact of_decide_eq_true (hlength a ha)
  · intro hnone
    apply hsent.trans
    rw [List.filter_eq_self.mpr fun a ha => decide_eq_true (hnone a ha)]

/-- Frames that stay inside the window are all published. -/
theorem published_perm_accepted_four_frames :
    ∃ s, run (windowFive true) 6 ([2, 1, 4, 3].map numbered) .eof = some s ∧
      (s.published.Perm ((State.initial (windowFive true)).accepted ([2, 1, 4, 3].map numbered)) ↔
        NoneLost (windowFive true) ([2, 1, 4, 3].map numbered)) :=
  published_perm_accepted_iff rfl (noWrap_of_forall (by decide)) (by decide) .eof

/-- Six frames in order lose the first one: the window sends frame 5 when it
has to make room for frame 6. -/
theorem six_frames_not_perm_accepted :
    ¬ ∃ s, run (windowFive true) 6 ([1, 2, 3, 4, 5, 6].map numbered) .eof = some s ∧
      s.published.Perm
        ((State.initial (windowFive true)).accepted ([1, 2, 3, 4, 5, 6].map numbered)) := by
  rintro ⟨s, hrun, hperm⟩
  have hpublished : (run (windowFive true) 6 ([1, 2, 3, 4, 5, 6].map numbered) .eof).map
      State.published = some ([5, 2, 3, 4, 6].map numbered) := by decide
  rw [hrun, Option.map_some, Option.some.injEq] at hpublished
  have hlength := hperm.length_eq
  rw [hpublished] at hlength
  exact absurd hlength (by decide)

/-- Each of the two publication phases is ordered by frame number. -/
theorem sent_pairwise (cfg : Config) (pdus : List (Pdu Score Data)) (newest : Nat) :
    ((sentByAdvance cfg (arrivals cfg pdus) newest).filterMap getFrameNumber).Pairwise (· ≤ ·) ∧
      ((sentByFlush cfg (arrivals cfg pdus) newest).filterMap getFrameNumber).Pairwise
        (· ≤ ·) := by
  constructor
  · rw [List.pairwise_filterMap]
    exact Grouping.pairwise_flatMap_range'
      (fun _ _ hx => getFrameNumber_of_mem_onTime (mem_of_mem_select hx)) _ _
  · rw [List.pairwise_filterMap]
    exact Grouping.pairwise_flatMap_range'
      (fun _ _ hx => getFrameNumber_of_mem_held (mem_of_mem_select hx)) _ _

/-- The numbers sent from a range of groups are those of the range with an
arrival that its group keeps. -/
theorem mem_numbers_flatMap_select {pdus : List (Pdu Score Data)}
    {keep : Nat → Arrival Score Data → Bool}
    (hkeep : ∀ group a, keep group a = true → a.number = group) {start count number : Nat} :
    number ∈ ((List.range' start count).flatMap fun group =>
        select cfg (((arrivals cfg pdus).filter (keep group)).map Arrival.pdu)).filterMap
          getFrameNumber ↔
      ∃ a ∈ arrivals cfg pdus, a.number = number ∧ keep number a = true ∧
        start ≤ number ∧ number < start + count := by
  constructor
  · intro hmem
    obtain ⟨pdu, hpdu, hnumber⟩ := List.mem_filterMap.mp hmem
    obtain ⟨group, hgroup, hselect⟩ := List.mem_flatMap.mp hpdu
    obtain ⟨a, ha, rfl⟩ := List.mem_map.mp (mem_of_mem_select hselect)
    obtain ⟨harrival, hkept⟩ := List.mem_filter.mp ha
    obtain rfl := hkeep group a hkept
    rw [getFrameNumber_of_mem_arrivals harrival] at hnumber
    cases hnumber
    exact ⟨a, harrival, rfl, hkept, List.mem_range'_1.mp hgroup⟩
  · rintro ⟨a, ha, hnumber, hkept, hrange⟩
    have hgroup : select cfg (((arrivals cfg pdus).filter (keep number)).map Arrival.pdu) ≠ [] := by
      rw [Ne, select_eq_nil_iff]
      exact mem_map_pdu_filter ha hkept
    obtain ⟨pdu, hpdu⟩ := List.exists_mem_of_ne_nil _ hgroup
    apply List.mem_filterMap.mpr
    refine ⟨pdu, List.mem_flatMap.mpr ⟨number, List.mem_range'_1.mpr hrange, hpdu⟩, ?_⟩
    exact getFrameNumber_of_mem_filter (hkeep number) (mem_of_mem_select hpdu)

/-- The numbers sent while the window advances. -/
theorem mem_numbers_sentByAdvance {pdus : List (Pdu Score Data)} {newest number : Nat} :
    number ∈ (sentByAdvance cfg (arrivals cfg pdus) newest).filterMap getFrameNumber ↔
      ∃ a ∈ arrivals cfg pdus, a.number = number ∧ a.late = false ∧
        cfg.window ≤ number ∧ number < newest := by
  unfold sentByAdvance onTime
  rw [mem_numbers_flatMap_select fun _ _ hkept => (of_decide_eq_true hkept).1]
  constructor
  · rintro ⟨a, ha, hnumber, hkept, hge, hlt⟩
    exact ⟨a, ha, hnumber, (of_decide_eq_true hkept).2, hge, by omega⟩
  · rintro ⟨a, ha, hnumber, hontime, hge, hlt⟩
    exact ⟨a, ha, hnumber, decide_eq_true ⟨hnumber, hontime⟩, hge, by omega⟩

/-- The numbers sent by the final flush. -/
theorem mem_numbers_sentByFlush {pdus : List (Pdu Score Data)} {newest number : Nat} :
    number ∈ (sentByFlush cfg (arrivals cfg pdus) newest).filterMap getFrameNumber ↔
      ∃ a ∈ arrivals cfg pdus, a.number = number ∧ number ≤ newest ∧
        newest < number + cfg.window ∧
        (number = newest ∨ number < cfg.window ∨ a.late = true) := by
  have hpos := cfg.window_pos
  unfold sentByFlush held
  rw [mem_numbers_flatMap_select fun _ _ hkept => (of_decide_eq_true hkept).1]
  constructor
  · rintro ⟨a, ha, hnumber, hkept, hge, hlt⟩
    exact ⟨a, ha, hnumber, by omega, by omega, (of_decide_eq_true hkept).2⟩
  · rintro ⟨a, ha, hnumber, hle, hwindow, hheld⟩
    exact ⟨a, ha, hnumber, decide_eq_true ⟨hnumber, hheld⟩, by omega, by omega⟩

/-- The published frame numbers never decrease if and only if the advancing
window sends no frame that is newer than one which the flush still has to
send. -/
theorem published_pairwise_le_iff {pdus : List (Pdu Score Data)} (hwrap : NoWrap cfg pdus)
    {fuel : Nat} (hfuel : cfg.window < fuel) (ending : Ending) :
    ∃ s, run cfg fuel pdus ending = some s ∧
      ((s.published.filterMap getFrameNumber).Pairwise (· ≤ ·) ↔ NoneOvertaken cfg pdus) := by
  obtain ⟨s, hrun, hpublished⟩ := run_published fuel hfuel hwrap ending
  refine ⟨s, hrun, ?_⟩
  obtain ⟨hadvance, hflush⟩ := sent_pairwise cfg pdus (newestOf cfg pdus)
  rw [hpublished, List.filterMap_append, List.pairwise_append]
  constructor
  · rintro ⟨_, _, hphases⟩ a ha b hb hge hlt hontime hwindow hnewer
    by_contra hstays
    have hfirst := mem_numbers_sentByAdvance.mpr ⟨a, ha, rfl, hontime, hge, hlt⟩
    have hheld : b.number < cfg.window ∨ b.late = true := by
      rcases Nat.lt_or_ge b.number cfg.window with hsmall | hlarge
      · exact Or.inl hsmall
      · exact Or.inr (by simpa using fun hontime => hstays ⟨hlarge, hontime⟩)
    have hsecond := mem_numbers_sentByFlush.mpr
      ⟨b, hb, rfl, (hnewer.trans hlt).le, hwindow, Or.inr hheld⟩
    exact absurd (hphases _ hfirst _ hsecond) (Nat.not_le.mpr hnewer)
  · intro hnone
    refine ⟨hadvance, hflush, ?_⟩
    intro first hfirst second hsecond
    obtain ⟨a, ha, rfl, hontime, hge, hlt⟩ := mem_numbers_sentByAdvance.mp hfirst
    obtain ⟨b, hb, rfl, hle, hwindow, hheld⟩ := mem_numbers_sentByFlush.mp hsecond
    by_contra hnewer
    obtain ⟨hlarge, hbontime⟩ :=
      hnone a ha b hb hge hlt hontime hwindow (Nat.lt_of_not_le hnewer)
    rcases hheld with hnewest | hsmall | hlate
    · omega
    · omega
    · rw [hbontime] at hlate
      cases hlate

theorem published_pairwise_le_four_frames :
    ∃ s, run (windowFive false) 6 ([2, 1, 4, 3].map numbered) .eof = some s ∧
      ((s.published.filterMap getFrameNumber).Pairwise (· ≤ ·) ↔
        NoneOvertaken (windowFive false) ([2, 1, 4, 3].map numbered)) :=
  published_pairwise_le_iff (noWrap_of_forall (by decide)) (by decide) .eof

/-- Six frames in order are published out of order: frame 5 leaves first. -/
theorem six_frames_not_pairwise_le :
    ¬ ∃ s, run (windowFive true) 6 ([1, 2, 3, 4, 5, 6].map numbered) .eof = some s ∧
      (s.published.filterMap getFrameNumber).Pairwise (· ≤ ·) := by
  rintro ⟨s, hrun, hordered⟩
  have hpublished : (run (windowFive true) 6 ([1, 2, 3, 4, 5, 6].map numbered) .eof).map
      (fun t => t.published.filterMap getFrameNumber) = some [5, 2, 3, 4, 6] := by decide
  rw [hrun, Option.map_some, Option.some.injEq] at hpublished
  rw [hpublished] at hordered
  exact absurd hordered (by decide)

end Publication

end GrCcsds.SortFrames
