import GrCcsds.Dll.Block
import Mathlib.Data.Rat.Floor
import Mathlib.Tactic.Positivity

/-! # The fractional index

An update splits a position into an integer part that is rounded down and a
remainder that has the sign of the position. They belong together as long as
the position is not negative, or a whole number. Half a symbol ahead of a
fractional index this is always so; the timing error may lead before the
basepoint.
-/

namespace GrCcsds.Dll

open Foundation Foundation.Fractional

variable {K Other : Type} [Field K] [LinearOrder K] [FloorRing K]

/-- An update splits its position, and an interpolation does not extrapolate. -/
def Event.Fractional : Event K → Prop
  | .interpolated _ _ mu => 0 ≤ mu ∧ mu < 1
  | .updated position int frac => (int : K) + frac = position
  | .returned .. => True

namespace Machine

/-- The fractional index has a value. -/
def Positioned (m : Machine K Other) : Prop := m.members.init = true ∨ m.point ≠ .idle

/-- Every update so far has split its position, and the fractional index is a fraction. -/
structure Fractional (m : Machine K Other) : Prop where
  log : ∀ event ∈ m.log, event.Fractional
  mu : m.Positioned → 0 ≤ m.members.mu ∧ m.members.mu < 1

/-- The timing error does not lead before the basepoint, or by a whole number of samples. -/
def StaysAhead (cfg : Config K) (m : Machine K Other) (label : Label K Other) : Prop :=
  match m.point, label with
  | .adjust .., .proceed => 0 ≤ m.adjusted cfg ∨ Int.fract (m.adjusted cfg) = 0
  | _, _ => True

variable {cfg : Config K} {m : Machine K Other} {call : Call K Other} {numOut : Nat}

/-- The update with the timing error ends the call or goes on to the next symbol. -/
theorem adjust_cases (cfg : Config K) (m : Machine K Other) (call : Call K Other)
    (numOut : Nat) :
    (m.adjust cfg call numOut).members.init = true ∧
    (m.adjust cfg call numOut).members.mu = getFrac (m.adjusted cfg) ∧
    ((m.adjust cfg call numOut).point = .intermediate call numOut ∧ m.members.init = true ∧
        (m.adjust cfg call numOut).members.l = m.members.l + getInt (m.adjusted cfg) ∧
        m.members.l + getInt (m.adjusted cfg) +
          getInt (getFrac (m.adjusted cfg) + cfg.osfHalf) + 3 ≤ call.ninputItems ∧
        numOut < call.noutputItems ∧
        (m.adjust cfg call numOut).log = (m.moveTo (m.adjusted cfg)).log ∨
      (m.adjust cfg call numOut).point = .idle ∧ (m.adjust cfg call numOut).members.l = 1 ∧
        (m.adjust cfg call numOut).log = (m.moveTo (m.adjusted cfg)).log ++
          [.returned call.noutputItems call.ninputItems (if m.members.init then numOut else 2)
            (m.members.l + getInt (m.adjusted cfg) - 1)]) := by
  unfold adjust
  split
  next hinit =>
    dsimp only
    split
    next => exact ⟨hinit, rfl, Or.inr ⟨rfl, rfl, rfl⟩⟩
    next hmore =>
      obtain ⟨hmissing, hspace⟩ := not_or.mp hmore
      exact ⟨hinit, rfl, Or.inl ⟨rfl, hinit, rfl, sub_nonpos.mp (not_lt.mp hmissing),
        Nat.lt_of_not_le hspace, rfl⟩⟩
  next => exact ⟨rfl, rfl, Or.inr ⟨rfl, rfl, rfl⟩⟩

theorem step_adjust (hpoint : m.point = .adjust call numOut) :
    m.step cfg .proceed = some (m.adjust cfg call numOut) := by
  unfold step
  rw [hpoint]

variable [IsStrictOrderedRing K]

theorem getFrac_mem {position : K} (hahead : 0 ≤ position ∨ Int.fract position = 0) :
    0 ≤ getFrac position ∧ getFrac position < 1 := by
  rw [getFrac, (remainderOne_eq_fract_iff position).mpr hahead]
  exact ⟨Int.fract_nonneg _, Int.fract_lt_one _⟩

theorem halfSymbol_nonneg (hmu : 0 ≤ m.members.mu) : 0 ≤ m.halfSymbol cfg := by
  unfold halfSymbol Config.osfHalf
  positivity

omit [FloorRing K] [IsStrictOrderedRing K] in
theorem fractional_append_iff {log : List (Event K)} {event : Event K} :
    (∀ other ∈ log ++ [event], other.Fractional) ↔
      (∀ other ∈ log, other.Fractional) ∧ event.Fractional := by
  rw [List.forall_mem_append, List.forall_mem_singleton]

theorem log_moveTo_fractional_iff (hlog : ∀ event ∈ m.log, event.Fractional) {position : K} :
    (∀ event ∈ (m.moveTo position).log, event.Fractional) ↔
      0 ≤ position ∨ Int.fract position = 0 := by
  rw [← floor_add_remainderOne_iff]
  exact fractional_append_iff.trans (and_iff_right hlog)

/-- An update to a position that is not behind the basepoint. -/
theorem fractional_moveTo (hlog : ∀ event ∈ m.log, event.Fractional) {position : K}
    (hahead : 0 ≤ position) : (m.moveTo position).Fractional where
  log := (log_moveTo_fractional_iff hlog).mpr (Or.inl hahead)
  mu := fun _ => getFrac_mem (Or.inl hahead)

theorem Fractional.begin (hm : m.Fractional) : (m.begin cfg call).Fractional := by
  unfold Machine.begin
  split
  next =>
    exact ⟨fractional_append_iff.mpr ⟨hm.log, trivial⟩, hm.mu⟩
  next =>
    split
    next hinit => exact ⟨hm.log, fun _ => hm.mu (Or.inl hinit)⟩
    next =>
      have hlog : ∀ event ∈ (m.firstSymbol call).log, event.Fractional := hm.log
      exact fractional_moveTo hlog (halfSymbol_nonneg (m := m.firstSymbol call) le_rfl)

theorem Fractional.intermediate (hm : m.Fractional) (hpositioned : m.Positioned) :
    (m.intermediate cfg call numOut).Fractional := by
  have hmu := hm.mu hpositioned
  have hread : (m.read call).Fractional := hmu
  have hlog : ∀ event ∈ (m.retrieve call numOut).log, event.Fractional :=
    fractional_append_iff.mpr ⟨hm.log, hread⟩
  exact fractional_moveTo hlog (halfSymbol_nonneg (m := m.retrieve call numOut) hmu.1)

omit [FloorRing K] [IsStrictOrderedRing K] in
theorem Fractional.current (hm : m.Fractional) (hpositioned : m.Positioned) :
    (m.current call numOut).Fractional :=
  ⟨fractional_append_iff.mpr ⟨hm.log, hm.mu hpositioned⟩, fun _ => hm.mu hpositioned⟩

theorem fractional_adjust_iff (hm : m.Fractional) :
    (m.adjust cfg call numOut).Fractional ↔
      0 ≤ m.adjusted cfg ∨ Int.fract (m.adjusted cfg) = 0 := by
  obtain ⟨hinit, hmu, hcases⟩ := adjust_cases cfg m call numOut
  have hlog : (∀ event ∈ (m.adjust cfg call numOut).log, event.Fractional) ↔
      0 ≤ m.adjusted cfg ∨ Int.fract (m.adjusted cfg) = 0 := by
    rw [← log_moveTo_fractional_iff hm.log]
    rcases hcases with ⟨-, -, -, -, -, hmore⟩ | ⟨-, -, hend⟩
    · rw [hmore]
    · rw [hend]
      exact fractional_append_iff.trans (and_iff_left trivial)
  constructor
  · intro hnext
    exact hlog.mp hnext.log
  · intro hahead
    exact ⟨hlog.mpr hahead, fun _ => hmu ▸ getFrac_mem hahead⟩

/-- The fractional index stays a fraction in exactly those steps that do not lead before the
basepoint. -/
theorem fractional_step_iff (hm : m.Fractional) {label : Label K Other} :
    (∀ next, m.step cfg label = some next → next.Fractional) ↔ m.StaysAhead cfg label := by
  unfold StaysAhead
  split
  next _ _ call numOut hpoint =>
    have hadjust : (m.adjust cfg call numOut).Fractional ↔ _ := fractional_adjust_iff hm
    rw [← hadjust, step_adjust hpoint]
    exact ⟨fun hall => hall _ rfl, fun hadjust next hnext => Option.some.inj hnext ▸ hadjust⟩
  next hother =>
    refine iff_of_true (fun next hstep => ?_) trivial
    unfold step at hstep
    split at hstep
    next =>
      cases hstep
      exact hm.begin
    next hpoint =>
      cases hstep
      exact hm.intermediate (Or.inr (hpoint ▸ nofun))
    next hpoint =>
      cases hstep
      exact hm.current (Or.inr (hpoint ▸ nofun))
    next hpoint => exact (hother _ _ hpoint rfl).elim
    next => cases hstep

omit [FloorRing K] [IsStrictOrderedRing K] in
theorem fractional_start (members : Members K) : (start members : Machine K Other).Fractional where
  log := nofun
  mu := by
    rintro (hinit | hpoint)
    · cases hinit
    · exact absurd rfl hpoint

/-- Every update of a run splits its position and the fractional index is a fraction in all
states, if and only if no timing error of the run leads before the basepoint. -/
theorem fractional_index_iff (cfg : Config K) (members : Members K)
    (labels : List (Label K Other)) :
    Transition.Along (step cfg)
        (fun m label => ∀ next, m.step cfg label = some next → next.Fractional)
        (start members) labels ↔
      Transition.Along (step cfg) (StaysAhead cfg) (start members) labels :=
  Transition.along_iff_of_invariant (fun _ _ hm _ => fractional_step_iff hm)
    (fun _ _ next _ _ hall hstep => hall next hstep)
    (Transition.along_of_forall (fun _ _ => trivial) labels _) (fractional_start members)

/-- Members without a value. -/
def unset : Members ℚ where
  init := false
  prev := 0
  intm := 0
  curr := 0
  tauHat := 0
  gammaEps := 0
  l := 0
  mu := 0
  tagCount := 0

/-- Two samples for each symbol, and errors scaled by a half. -/
def halfStep : Config ℚ where
  osf := 2
  gamma := 1 / 2

/-- The samples that the first symbols are taken from, with two of them not zero. -/
def risingCall (second third : ℚ) : Call ℚ Unit where
  noutputItems := 2
  ninputItems := 6
  input := fun i => if i = 2 then ⟨second, 0⟩ else if i = 3 then ⟨third, 0⟩ else 0
  tags := []

/-- The first symbols of a call. -/
def firstSymbols (call : Call ℚ Unit) : List (Label ℚ Unit) :=
  [.work call, .proceed, .proceed, .proceed]

theorem fractional_index_iff_slow : Transition.Along (step halfStep)
    (fun m label => ∀ next, m.step halfStep label = some next → next.Fractional)
    (start unset) (firstSymbols (risingCall 1 1)) := by
  refine (fractional_index_iff halfStep unset _).mpr ?_
  refine ⟨trivial, ?_⟩
  rintro next ⟨⟩
  refine ⟨trivial, ?_⟩
  rintro next ⟨⟩
  refine ⟨trivial, ?_⟩
  rintro next ⟨⟩
  exact ⟨Or.inl (by decide +kernel), fun _ _ => trivial⟩

/-- An error of more than half a symbol leads before the basepoint. -/
theorem index_before_basepoint :
    ((Transition.run (step halfStep) (start unset) (firstSymbols (risingCall 1 3))).map
      fun m => m.members.mu) = some (-1 / 2) ∧
    ¬ Transition.Along (step halfStep)
      (fun m label => ∀ next, m.step halfStep label = some next → next.Fractional)
      (start unset) (firstSymbols (risingCall 1 3)) := by
  have hmu : ((Transition.run (step halfStep) (start unset)
      (firstSymbols (risingCall 1 3))).map fun m => m.members.mu) = some (-1 / 2) := by
    decide +kernel
  refine ⟨hmu, fun halong => ?_⟩
  obtain ⟨m, hrun, hindex⟩ := Option.map_eq_some_iff.mp hmu
  have hinit : m.members.init = true := by
    have hflag : ((Transition.run (step halfStep) (start unset)
        (firstSymbols (risingCall 1 3))).map fun m => m.members.init) = some true := by
      decide +kernel
    rw [hrun] at hflag
    exact Option.some.inj hflag
  have hnonneg := ((halong.last (fractional_start unset) hrun).mu (Or.inl hinit)).1
  rw [hindex] at hnonneg
  norm_num at hnonneg

end Machine

end GrCcsds.Dll
