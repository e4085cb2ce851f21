import GrCcsds.SortFrames.Publication
import Mathlib.Order.Basic

/-! # Which of several copies of a frame is published

Without duplicates a slot keeps one of the copies stored in it: the best by
score, or the first or the last one. The copies of one number only meet in the
same slot as long as none of them is sent in between, so the choice is the best
of all accepted copies exactly for the numbers described here.
-/

namespace GrCcsds.SortFrames

open Utils Foundation

variable {Score Data : Type} {cfg : Config} [LinearOrder Score] [Zero Score]

/-- The copy that should represent its frame number. With a score it is the
first copy with the highest or the lowest score, without one it is the last or
the first copy. -/
def IsBest (cfg : Config) (copies : List (Pdu Score Data)) (pdu : Pdu Score Data) : Prop :=
  ∃ earlier later, copies = earlier ++ pdu :: later ∧
    if cfg.hasScoreField then
      if cfg.sortAscending then
        (∀ other ∈ earlier, scoreOrZero cfg other < scoreOrZero cfg pdu) ∧
          ∀ other ∈ later, scoreOrZero cfg other ≤ scoreOrZero cfg pdu
      else
        (∀ other ∈ earlier, scoreOrZero cfg pdu < scoreOrZero cfg other) ∧
          ∀ other ∈ later, scoreOrZero cfg pdu ≤ scoreOrZero cfg other
    else if cfg.sortAscending then later = []
    else earlier = []

/-- The condition on the arrivals of one frame number under which its best copy
is the one that gets published. A number below the window size has to be in the
final window. The copies of a larger number in the final window came either all
on time or all late, and of a number that the window has passed the best copy
is the best of those on time. -/
structure BestSurvives (cfg : Config) (pdus : List (Pdu Score Data)) (number : Nat) : Prop where
  small : number < cfg.window → newestOf cfg pdus < number + cfg.window
  inside : cfg.window ≤ number → newestOf cfg pdus < number + cfg.window →
    onTime (arrivals cfg pdus) number = [] ∨ tardy (arrivals cfg pdus) number = []
  passed : cfg.window ≤ number → number + cfg.window ≤ newestOf cfg pdus →
    ∃ pdu, IsBest cfg (onTime (arrivals cfg pdus) number) pdu ∧
      IsBest cfg (ofNumber (arrivals cfg pdus) number) pdu

namespace BestSurvives

variable {pdus : List (Pdu Score Data)} {number : Nat}

theorem iff_of_small (hsmall : number < cfg.window) :
    BestSurvives cfg pdus number ↔ newestOf cfg pdus < number + cfg.window := by
  have hlarge : ¬ cfg.window ≤ number := Nat.not_le_of_lt hsmall
  constructor
  · intro hsurvives
    exact hsurvives.small hsmall
  · intro hinside
    exact ⟨fun _ => hinside, fun hle => absurd hle hlarge, fun hle => absurd hle hlarge⟩

theorem iff_of_inside (hlarge : cfg.window ≤ number)
    (hinside : newestOf cfg pdus < number + cfg.window) :
    BestSurvives cfg pdus number ↔
      onTime (arrivals cfg pdus) number = [] ∨ tardy (arrivals cfg pdus) number = [] := by
  constructor
  · intro hsurvives
    exact hsurvives.inside hlarge hinside
  · intro hempty
    exact ⟨fun _ => hinside, fun _ _ => hempty, fun _ hout => absurd hinside hout.not_gt⟩

theorem iff_of_passed (hlarge : cfg.window ≤ number)
    (hout : number + cfg.window ≤ newestOf cfg pdus) :
    BestSurvives cfg pdus number ↔
      ∃ pdu, IsBest cfg (onTime (arrivals cfg pdus) number) pdu ∧
        IsBest cfg (ofNumber (arrivals cfg pdus) number) pdu := by
  constructor
  · intro hsurvives
    exact hsurvives.passed hlarge hout
  · intro hbest
    exact ⟨fun hsmall => absurd hsmall hlarge.not_gt, fun _ hinside => absurd hinside hout.not_gt,
      fun _ _ => hbest⟩

end BestSurvives

theorem better_trans {first second third : Pdu Score Data}
    (hfirst : better cfg first (scoreOrZero cfg second) = true)
    (hsecond : better cfg second (scoreOrZero cfg third) = true) :
    better cfg first (scoreOrZero cfg third) = true := by
  unfold better at hfirst hsecond ⊢
  split
  next hscore =>
    rw [if_pos hscore] at hfirst hsecond
    split
    next hascending =>
      rw [if_pos hascending, decide_eq_true_eq] at hfirst hsecond
      exact decide_eq_true (hsecond.trans hfirst)
    next hdescending =>
      rw [if_neg hdescending, decide_eq_true_eq] at hfirst hsecond
      exact decide_eq_true (hfirst.trans hsecond)
  next hscore =>
    rw [if_neg hscore] at hfirst
    exact hfirst

/-- A copy that displaces the best one displaces every copy which did not. -/
theorem better_of_not_better {first second third : Pdu Score Data}
    (hfirst : better cfg first (scoreOrZero cfg second) = true)
    (hthird : better cfg third (scoreOrZero cfg second) = false) :
    better cfg first (scoreOrZero cfg third) = true := by
  unfold better at hfirst hthird ⊢
  split
  next hscore =>
    rw [if_pos hscore] at hfirst hthird
    split
    next hascending =>
      rw [if_pos hascending, decide_eq_true_eq] at hfirst
      rw [if_pos hascending, decide_eq_false_iff_not, not_lt] at hthird
      exact decide_eq_true (hthird.trans_lt hfirst)
    next hdescending =>
      rw [if_neg hdescending, decide_eq_true_eq] at hfirst
      rw [if_neg hdescending, decide_eq_false_iff_not, not_lt] at hthird
      exact decide_eq_true (hfirst.trans_le hthird)
  next hscore =>
    rw [if_neg hscore] at hfirst
    exact hfirst

/-- The best copy displaces every earlier one and is displaced by no later one. -/
theorem isBest_iff_better (copies : List (Pdu Score Data)) (pdu : Pdu Score Data) :
    IsBest cfg copies pdu ↔ ∃ earlier later, copies = earlier ++ pdu :: later ∧
      (∀ other ∈ earlier, better cfg pdu (scoreOrZero cfg other) = true) ∧
      ∀ other ∈ later, better cfg other (scoreOrZero cfg pdu) = false := by
  unfold IsBest better
  apply exists_congr
  intro earlier
  apply exists_congr
  intro later
  apply and_congr_right
  intro _
  cases cfg.hasScoreField with
  | true =>
      cases cfg.sortAscending with
      | true => simp only [if_true, decide_eq_true_eq, decide_eq_false_iff_not, not_lt]
      | false =>
          simp only [if_true, Bool.false_eq_true, if_false, decide_eq_true_eq,
            decide_eq_false_iff_not, not_lt]
  | false =>
      cases cfg.sortAscending with
      | true => simp [List.eq_nil_iff_forall_not_mem]
      | false => simp [List.eq_nil_iff_forall_not_mem]

/-- There is at most one best copy. -/
theorem IsBest.unique {copies : List (Pdu Score Data)} {first second : Pdu Score Data}
    (hfirst : IsBest cfg copies first) (hsecond : IsBest cfg copies second) :
    first = second := by
  obtain ⟨earlier, later, rfl, hearlier, hlater⟩ := (isBest_iff_better _ _).mp hfirst
  obtain ⟨earlier', later', heq, hearlier', hlater'⟩ := (isBest_iff_better _ _).mp hsecond
  rcases List.append_eq_append_iff.mp heq with ⟨middle, hleft, hright⟩ | ⟨middle, hleft, hright⟩
  · cases middle with
    | nil => exact (List.cons.inj hright).1
    | cons head rest =>
        obtain ⟨rfl, hrest⟩ := List.cons.inj hright
        have hdisplaces := hearlier' first (by simp [hleft])
        have hkept := hlater second (by simp [hrest])
        rw [hdisplaces] at hkept
        cases hkept
  · cases middle with
    | nil => exact (List.cons.inj hright).1.symm
    | cons head rest =>
        obtain ⟨rfl, hrest⟩ := List.cons.inj hright
        have hdisplaces := hearlier second (by simp [hleft])
        have hkept := hlater' first (by simp [hrest])
        rw [hdisplaces] at hkept
        cases hkept

/-- A slot that takes no duplicates holds the best of the copies stored in it. -/
theorem collect_eq_best (hduplicates : cfg.allowDuplicates = false)
    {copies : List (Pdu Score Data)} (hne : copies ≠ []) :
    ∃ pdu, collect cfg copies =
        { frames := [pdu], bestIndex := 0, bestValue := scoreOrZero cfg pdu } ∧
      IsBest cfg copies pdu := by
  induction copies using List.reverseRecOn with
  | nil => exact absurd rfl hne
  | append_singleton front last ih =>
      rw [collect_append_singleton]
      by_cases hfront : front = []
      · subst hfront
        refine ⟨last, rfl, (isBest_iff_better _ _).mpr ⟨[], [], rfl, ?_, ?_⟩⟩
        · intro other hother
          cases hother
        · intro other hother
          cases hother
      · obtain ⟨best, hcollect, hbest⟩ := ih hfront
        obtain ⟨earlier, later, hsplit, hearlier, hlater⟩ := (isBest_iff_better _ _).mp hbest
        rw [hcollect]
        cases hbetter : better cfg last (scoreOrZero cfg best) with
        | true =>
            refine ⟨last, ?_, (isBest_iff_better _ _).mpr ⟨front, [], rfl, ?_, ?_⟩⟩
            · simp [addDuplicate, hduplicates, hbetter]
            · intro other hother
              rw [hsplit] at hother
              rcases List.mem_append.mp hother with hbefore | hafter
              · exact better_trans hbetter (hearlier other hbefore)
              · rcases List.mem_cons.mp hafter with rfl | hafter
                · exact hbetter
                · exact better_of_not_better hbetter (hlater other hafter)
            · intro other hother
              cases hother
        | false =>
            refine ⟨best, ?_, (isBest_iff_better _ _).mpr
              ⟨earlier, later ++ [last], by simp [hsplit], hearlier, ?_⟩⟩
            · simp [addDuplicate, hduplicates, hbetter]
            · intro other hother
              rcases List.mem_append.mp hother with hbefore | hlast
              · exact hlater other hbefore
              · rw [List.mem_singleton.mp hlast]
                exact hbetter

/-- The only frame left of a non-empty list of copies is the best one. -/
theorem select_eq_singleton_iff (hduplicates : cfg.allowDuplicates = false)
    {copies : List (Pdu Score Data)} {pdu : Pdu Score Data} :
    select cfg copies = [pdu] ↔ IsBest cfg copies pdu := by
  by_cases hnil : copies = []
  · subst hnil
    constructor
    · intro hselect
      cases hselect
    · rintro ⟨earlier, later, heq, _⟩
      exact absurd heq (by simp)
  · obtain ⟨best, hcollect, hbest⟩ := collect_eq_best hduplicates hnil
    rw [select, hcollect]
    constructor
    · intro heq
      rw [← (List.cons.inj heq).1]
      exact hbest
    · intro hpdu
      rw [hbest.unique hpdu]

/-- The newest number has no late copies. -/
theorem tardy_newest {pdus : List (Pdu Score Data)} (hwrap : NoWrap cfg pdus) :
    tardy (arrivals cfg pdus) (newestOf cfg pdus) = [] := by
  rw [tardy, List.map_eq_nil_iff, List.filter_eq_nil_iff]
  intro a ha hcond
  obtain ⟨hnumber, hlate⟩ := of_decide_eq_true hcond
  have hlt := (arrivals_bound hwrap ha).2 hlate
  rw [hnumber] at hlt
  exact Nat.lt_irrefl _ hlt

/-- The PDUs of one number among the accepted ones. -/
theorem filter_accepted_eq {pdus : List (Pdu Score Data)} (hwrap : NoWrap cfg pdus)
    (number : Nat) :
    ((State.initial cfg).accepted pdus).filter (fun pdu => getFrameNumber pdu = some number) =
      ofNumber (arrivals cfg pdus) number := by
  rw [State.accepted_eq _ hwrap, List.filter_map, ofNumber]
  congr 1
  apply List.filter_congr
  intro a ha
  change decide (getFrameNumber a.pdu = some number) = _
  rw [getFrameNumber_of_mem_arrivals ha, decide_eq_decide, Option.some_inj]

/-- The published PDUs of one number: those sent when the window moved past it,
then those sent from the final window. -/
theorem filter_sent_eq {pdus : List (Pdu Score Data)} (newest number : Nat) :
    (sentByAdvance cfg (arrivals cfg pdus) newest ++
        sentByFlush cfg (arrivals cfg pdus) newest).filter
      (fun pdu => getFrameNumber pdu = some number) =
      (if cfg.window ≤ number ∧ number < newest then
        select cfg (onTime (arrivals cfg pdus) number) else []) ++
      (if newest < number + cfg.window ∧ number ≤ newest then
        select cfg (held cfg (arrivals cfg pdus) newest number) else []) := by
  have hpos := cfg.window_pos
  rw [List.filter_append, sentByAdvance, sentByFlush,
    Grouping.filter_flatMap_range' (fun _ _ hx =>
      getFrameNumber_of_mem_onTime (mem_of_mem_select hx)),
    Grouping.filter_flatMap_range' (fun _ _ hx =>
      getFrameNumber_of_mem_held (mem_of_mem_select hx))]
  congr 1
  · congr 1
    rw [eq_iff_iff]
    omega
  · congr 1
    rw [eq_iff_iff]
    omega

/-- Of two non-empty groups more than one PDU is sent. -/
theorem append_select_ne_singleton {first second : List (Pdu Score Data)}
    (hfirst : first ≠ []) (hsecond : second ≠ []) (pdu : Pdu Score Data) :
    select cfg first ++ select cfg second ≠ [pdu] := by
  intro heq
  rcases List.append_eq_singleton_iff.mp heq with ⟨hnil, _⟩ | ⟨_, hnil⟩
  · exact hfirst ((select_eq_nil_iff _).mp hnil)
  · exact hsecond ((select_eq_nil_iff _).mp hnil)

/-- One number is published by its best copy alone if and only if its best copy
survives. -/
theorem sent_best_iff (hduplicates : cfg.allowDuplicates = false)
    {pdus : List (Pdu Score Data)} (hwrap : NoWrap cfg pdus) {number : Nat}
    (hcopies : ofNumber (arrivals cfg pdus) number ≠ []) :
    (∃ pdu, (sentByAdvance cfg (arrivals cfg pdus) (newestOf cfg pdus) ++
          sentByFlush cfg (arrivals cfg pdus) (newestOf cfg pdus)).filter
        (fun pdu => getFrameNumber pdu = some number) = [pdu] ∧
        IsBest cfg (ofNumber (arrivals cfg pdus) number) pdu) ↔
      BestSurvives cfg pdus number := by
  have hpos := cfg.window_pos
  have hle : number ≤ newestOf cfg pdus := by
    obtain ⟨pdu, hpdu⟩ := List.exists_mem_of_ne_nil _ hcopies
    obtain ⟨a, ha, hnumber, _⟩ := mem_ofNumber.mp hpdu
    rw [← hnumber]
    exact (arrivals_bound hwrap ha).1
  obtain ⟨best, hbest⟩ : ∃ best, IsBest cfg (ofNumber (arrivals cfg pdus) number) best := by
    obtain ⟨best, _, hbest⟩ := collect_eq_best hduplicates hcopies
    exact ⟨best, hbest⟩
  have hselect := (select_eq_singleton_iff hduplicates).mpr hbest
  rw [filter_sent_eq]
  rcases Nat.lt_or_ge number cfg.window with hsmall | hlarge
  · rw [BestSurvives.iff_of_small hsmall,
      if_neg (fun hcond => Nat.not_lt.mpr hcond.1 hsmall), List.nil_append]
    by_cases hinside : newestOf cfg pdus < number + cfg.window
    · rw [if_pos ⟨hinside, hle⟩, held_eq_ofNumber (Or.inr hsmall)]
      exact iff_of_true ⟨best, hselect, hbest⟩ hinside
    · rw [if_neg (fun hcond => hinside hcond.1)]
      refine iff_of_false ?_ hinside
      rintro ⟨pdu, hnil, _⟩
      cases hnil
  · by_cases hinside : newestOf cfg pdus < number + cfg.window
    · rw [BestSurvives.iff_of_inside hlarge hinside]
      rcases Nat.eq_or_lt_of_le hle with hnewest | hbelow
      · have htardy := tardy_newest hwrap
        rw [← hnewest] at htardy
        rw [if_neg (fun hcond => Nat.ne_of_lt hcond.2 hnewest), List.nil_append,
          if_pos ⟨hinside, hle⟩, held_eq_ofNumber (Or.inl hnewest)]
        exact iff_of_true ⟨best, hselect, hbest⟩ (Or.inr htardy)
      · rw [if_pos ⟨hlarge, hbelow⟩, if_pos ⟨hinside, hle⟩,
          held_eq_tardy (Nat.ne_of_lt hbelow) hlarge]
        constructor
        · rintro ⟨pdu, hsent, _⟩
          by_contra hboth
          obtain ⟨hontime, htardy⟩ := not_or.mp hboth
          exact append_select_ne_singleton hontime htardy pdu hsent
        · intro hempty
          refine ⟨best, ?_, hbest⟩
          rcases hempty with hontime | htardy
          · rw [hontime, select_nil, List.nil_append, ← ofNumber_eq_of_onTime_eq_nil hontime]
            exact hselect
          · rw [htardy, select_nil, List.append_nil, ← ofNumber_eq_of_tardy_eq_nil htardy]
            exact hselect
    · have hout := Nat.le_of_not_lt hinside
      rw [BestSurvives.iff_of_passed hlarge hout, if_pos ⟨hlarge, by omega⟩,
        if_neg (fun hcond => hinside hcond.1), List.append_nil]
      simp only [select_eq_singleton_iff hduplicates]

/-- Without duplicates, every accepted frame number is published exactly once
and by its best accepted copy if and only if the best copy of each of them
survives. -/
theorem published_best_iff (hduplicates : cfg.allowDuplicates = false)
    {pdus : List (Pdu Score Data)} (hwrap : NoWrap cfg pdus) {fuel : Nat}
    (hfuel : cfg.window < fuel) (ending : Ending) :
    ∃ s, run cfg fuel pdus ending = some s ∧
      ((∀ number, ∀ copies, copies = ((State.initial cfg).accepted pdus).filter
            (fun pdu => getFrameNumber pdu = some number) → copies ≠ [] →
          ∃ pdu, s.published.filter (fun pdu => getFrameNumber pdu = some number) = [pdu] ∧
            IsBest cfg copies pdu) ↔
        ∀ a ∈ arrivals cfg pdus, BestSurvives cfg pdus a.number) := by
  obtain ⟨s, hrun, hpublished⟩ := run_published fuel hfuel hwrap ending
  refine ⟨s, hrun, ?_⟩
  rw [hpublished]
  constructor
  · intro hall a ha
    have hcopies : ofNumber (arrivals cfg pdus) a.number ≠ [] :=
      mem_map_pdu_filter ha (decide_eq_true rfl)
    apply (sent_best_iff hduplicates hwrap hcopies).mp
    exact hall a.number _ (filter_accepted_eq hwrap a.number).symm hcopies
  · intro hall number copies heq hcopies
    rw [filter_accepted_eq hwrap] at heq
    subst heq
    obtain ⟨pdu, hpdu⟩ := List.exists_mem_of_ne_nil _ hcopies
    obtain ⟨a, ha, hnumber, _⟩ := mem_ofNumber.mp hpdu
    apply (sent_best_iff hduplicates hwrap hcopies).mpr
    rw [← hnumber]
    exact hall a ha

/-- Two copies of each of two frames that stay inside the window. -/
theorem published_best_two_frames :
    ∃ s, run (windowFive false) 6 ([2, 1, 2, 1].map numbered) .eof = some s ∧
      ((∀ number, ∀ copies, copies = ((State.initial (windowFive false)).accepted
            ([2, 1, 2, 1].map numbered)).filter
            (fun pdu => getFrameNumber pdu = some number) → copies ≠ [] →
          ∃ pdu, s.published.filter (fun pdu => getFrameNumber pdu = some number) = [pdu] ∧
            IsBest (windowFive false) copies pdu) ↔
        ∀ a ∈ arrivals (windowFive false) ([2, 1, 2, 1].map numbered),
          BestSurvives (windowFive false) ([2, 1, 2, 1].map numbered) a.number) :=
  published_best_iff rfl (noWrap_of_forall (by decide)) (by decide) .eof

/-- Of six frames in order the first one is not published at all. -/
theorem six_frames_not_published_best :
    ¬ ∃ s, run (windowFive false) 6 ([1, 2, 3, 4, 5, 6].map numbered) .eof = some s ∧
      ∀ number, ∀ copies, copies = ((State.initial (windowFive false)).accepted
          ([1, 2, 3, 4, 5, 6].map numbered)).filter
          (fun pdu => getFrameNumber pdu = some number) → copies ≠ [] →
        ∃ pdu, s.published.filter (fun pdu => getFrameNumber pdu = some number) = [pdu] ∧
          IsBest (windowFive false) copies pdu := by
  rintro ⟨s, hrun, hall⟩
  have hpublished : (run (windowFive false) 6 ([1, 2, 3, 4, 5, 6].map numbered) .eof).map
      State.published = some ([5, 2, 3, 4, 6].map numbered) := by decide
  rw [hrun, Option.map_some, Option.some.injEq] at hpublished
  obtain ⟨pdu, hsent, _⟩ := hall 1 [numbered 1] (by decide) (by decide)
  rw [hpublished] at hsent
  have hnone : ([5, 2, 3, 4, 6].map numbered).filter
      (fun pdu => getFrameNumber pdu = some 1) = [] := by decide
  rw [hnone] at hsent
  cases hsent

end GrCcsds.SortFrames
