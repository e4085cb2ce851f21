import Mathlib.Logic.Basic

/-! # Reachability in labelled transition functions

A partial step function takes a state and a label. A state is reachable if
allowed steps lead to it, and an invariant is shown by the start state and one
step.
-/

namespace Foundation.Transition

variable {State Label : Type*}

/-- The states that steps from a start state lead to, as long as every step is
allowed in its state. -/
inductive Reachable (step : State → Label → Option State) (allowed : State → Label → Prop)
    (start : State) : State → Prop where
  | refl : Reachable step allowed start start
  | step {s next : State} {label : Label} (reached : Reachable step allowed start s)
      (permitted : allowed s label) (stepped : step s label = some next) :
      Reachable step allowed start next

/-- Execute a list of labels. -/
def run (step : State → Label → Option State) : State → List Label → Option State
  | s, [] => some s
  | s, label :: rest => (step s label).bind fun next => run step next rest

/-- The steps that pass a test in their state. -/
def guarded (step : State → Label → Option State) (guard : State → Label → Bool) :
    State → Label → Option State :=
  fun s label => if guard s label then step s label else none

/-- Every step that a run attempts has a property. -/
def Along (step : State → Label → Option State) (p : State → Label → Prop) :
    State → List Label → Prop
  | _, [] => True
  | s, label :: rest => p s label ∧ ∀ next, step s label = some next → Along step p next rest

variable {step : State → Label → Option State} {allowed : State → Label → Prop} {start : State}

/-- The invariant rule. A step may use that the invariant holds before it. -/
theorem Reachable.invariant {inv : State → Prop} {s : State}
    (hreachable : Reachable step allowed start s) (hstart : inv start)
    (hstep : ∀ s label next, inv s → allowed s label → step s label = some next → inv next) :
    inv s := by
  induction hreachable with
  | refl => exact hstart
  | step _ hpermitted hstepped ih => exact hstep _ _ _ ih hpermitted hstepped

/-- The invariant rule for a step that uses what is known of every reachable state. -/
theorem Reachable.invariant_along {inv : State → Prop} {s : State}
    (hreachable : Reachable step allowed start s) (hstart : inv start)
    (hstep : ∀ s label next, Reachable step allowed start s → inv s → allowed s label →
      step s label = some next → inv next) : inv s := by
  induction hreachable with
  | refl => exact hstart
  | step hreached hpermitted hstepped ih => exact hstep _ _ _ hreached ih hpermitted hstepped

/-- Fewer restrictions on the steps reach more states. -/
theorem Reachable.mono {other : State → Label → Prop} {s : State}
    (hreachable : Reachable step allowed start s)
    (himp : ∀ s label, allowed s label → other s label) : Reachable step other start s := by
  induction hreachable with
  | refl => exact .refl
  | step _ hpermitted hstepped ih => exact ih.step (himp _ _ hpermitted) hstepped

/-- Restrictions that agree on the steps that exist reach the same states. -/
theorem Reachable.congr {other : State → Label → Prop}
    (hiff : ∀ s label next, step s label = some next → (allowed s label ↔ other s label))
    {s : State} : Reachable step allowed start s ↔ Reachable step other start s := by
  constructor
  · intro hreachable
    induction hreachable with
    | refl => exact .refl
    | step _ hpermitted hstepped ih => exact ih.step ((hiff _ _ _ hstepped).mp hpermitted) hstepped
  · intro hreachable
    induction hreachable with
    | refl => exact .refl
    | step _ hpermitted hstepped ih => exact ih.step ((hiff _ _ _ hstepped).mpr hpermitted) hstepped

theorem run_append (first second : List Label) (s : State) :
    run step s (first ++ second) = (run step s first).bind fun next => run step next second := by
  induction first generalizing s with
  | nil => rfl
  | cons label rest ih =>
      rw [List.cons_append, run, run, Option.bind_assoc]
      simp only [ih]

/-- Executing allowed labels reaches a state. -/
theorem Reachable.of_run {labels : List Label} {s next : State}
    (hreachable : Reachable step allowed start s)
    (hallowed : ∀ s, ∀ label ∈ labels, allowed s label)
    (hrun : run step s labels = some next) : Reachable step allowed start next := by
  induction labels generalizing s with
  | nil =>
      cases hrun
      exact hreachable
  | cons label rest ih =>
      obtain ⟨middle, hstep, hrest⟩ := Option.bind_eq_some_iff.mp hrun
      apply ih (hreachable.step (hallowed s label List.mem_cons_self) hstep) _ hrest
      intro s label hlabel
      exact hallowed s label (List.mem_cons_of_mem _ hlabel)

theorem reachable_of_run {labels : List Label} {s : State}
    (hrun : run step start labels = some s) : Reachable step (fun _ _ => True) start s :=
  .of_run .refl (fun _ _ _ => trivial) hrun

/-- A quantity that no step changes is the same at the end of a run. -/
theorem run_constant {α : Type*} {quantity : State → α}
    (hstep : ∀ s label next, step s label = some next → quantity next = quantity s)
    {labels : List Label} {s last : State} (hrun : run step s labels = some last) :
    quantity last = quantity s := by
  induction labels generalizing s with
  | nil =>
      cases hrun
      rfl
  | cons label rest ih =>
      obtain ⟨next, hnext, hrest⟩ := Option.bind_eq_some_iff.mp hrun
      rw [ih hrest, hstep s label next hnext]

/-- Properties that agree on the allowed steps of reachable states agree along runs. -/
theorem along_congr {p q : State → Label → Prop}
    (hiff : ∀ s label, Reachable step allowed start s → allowed s label → (p s label ↔ q s label))
    {labels : List Label} (hallowed : ∀ s, ∀ label ∈ labels, allowed s label) {s : State}
    (hreachable : Reachable step allowed start s) :
    Along step p s labels ↔ Along step q s labels := by
  induction labels generalizing s with
  | nil => exact Iff.rfl
  | cons label rest ih =>
      have hlabel := hallowed s label List.mem_cons_self
      have hrest : ∀ s, ∀ label ∈ rest, allowed s label :=
        fun s label hmem => hallowed s label (List.mem_cons_of_mem _ hmem)
      refine and_congr (hiff s label hreachable hlabel) (forall_congr' fun next => ?_)
      exact forall_congr' fun hstep => ih hrest (hreachable.step hlabel hstep)

theorem along_of_forall {p : State → Label → Prop} (hall : ∀ s label, p s label)
    (labels : List Label) (s : State) : Along step p s labels := by
  induction labels generalizing s with
  | nil => trivial
  | cons label rest ih => exact ⟨hall s label, fun next _ => ih next⟩

/-- Properties of steps agree along a run if they agree on the steps from states with an
invariant that the first of them keeps. -/
theorem along_iff_of_invariant {inv : State → Prop} {p q : State → Label → Prop}
    (hiff : ∀ s label, inv s → allowed s label → (p s label ↔ q s label))
    (hkeep : ∀ s label next, inv s → allowed s label → p s label → step s label = some next →
      inv next)
    {labels : List Label} {s : State} (hallowed : Along step allowed s labels) (hstart : inv s) :
    Along step p s labels ↔ Along step q s labels := by
  induction labels generalizing s with
  | nil => exact Iff.rfl
  | cons label rest ih =>
      obtain ⟨hlabel, hrest⟩ := hallowed
      have hagree := hiff s label hstart hlabel
      constructor
      · rintro ⟨hp, hfirst⟩
        refine ⟨hagree.mp hp, fun next hstep => ?_⟩
        exact (ih (hrest next hstep) (hkeep s label next hstart hlabel hp hstep)).mp
          (hfirst next hstep)
      · rintro ⟨hq, hfirst⟩
        have hp := hagree.mpr hq
        refine ⟨hp, fun next hstep => ?_⟩
        exact (ih (hrest next hstep) (hkeep s label next hstart hlabel hp hstep)).mpr
          (hfirst next hstep)

/-- What holds after every step of a run holds at its end. -/
theorem Along.last {p : State → Prop} {labels : List Label} {s last : State}
    (halong : Along step (fun s label => ∀ next, step s label = some next → p next) s labels)
    (hstart : p s) (hrun : run step s labels = some last) : p last := by
  induction labels generalizing s with
  | nil =>
      cases hrun
      exact hstart
  | cons label rest ih =>
      obtain ⟨next, hstep, hnext⟩ := Option.bind_eq_some_iff.mp hrun
      exact ih (halong.2 next hstep) (halong.1 next hstep) hnext

theorem guarded_eq_some_iff {guard : State → Label → Bool} {s next : State} {label : Label} :
    guarded step guard s label = some next ↔ guard s label = true ∧ step s label = some next :=
  Option.ite_none_right_eq_some

/-- Executing labels that pass a test for allowed steps reaches a state. -/
theorem Reachable.of_guarded_run {guard : State → Label → Bool} {labels : List Label}
    {s next : State} (hreachable : Reachable step allowed start s)
    (hguard : ∀ s label, guard s label = true → allowed s label)
    (hrun : run (guarded step guard) s labels = some next) :
    Reachable step allowed start next := by
  induction labels generalizing s with
  | nil =>
      cases hrun
      exact hreachable
  | cons label rest ih =>
      obtain ⟨middle, hguarded, hrest⟩ := Option.bind_eq_some_iff.mp hrun
      obtain ⟨hpasses, hstep⟩ := guarded_eq_some_iff.mp hguarded
      exact ih (hreachable.step (hguard s label hpasses) hstep) hrest

/-- Where every step exists and keeps an invariant, so does every run. -/
theorem exists_run {inv : State → Prop}
    (hstep : ∀ s label, inv s → ∃ next, step s label = some next ∧ inv next)
    (labels : List Label) {s : State} (hstart : inv s) :
    ∃ last, run step s labels = some last ∧ inv last := by
  induction labels generalizing s with
  | nil => exact ⟨s, rfl, hstart⟩
  | cons label rest ih =>
      obtain ⟨next, hnext, hinv⟩ := hstep s label hstart
      obtain ⟨last, hlast, hinvLast⟩ := ih hinv
      refine ⟨last, ?_, hinvLast⟩
      rw [run, hnext]
      exact hlast

/-- Steps of one label come to an end if each of them lowers a measure. -/
theorem exists_run_replicate {inv done : State → Prop} (measure : State → Nat) (label : Label)
    (hstep : ∀ s, inv s → ¬ done s →
      ∃ next, step s label = some next ∧ inv next ∧ measure next < measure s)
    {s : State} (hstart : inv s) :
    ∃ n ≤ measure s, ∃ last, run step s (List.replicate n label) = some last ∧ inv last ∧
      done last := by
  induction hbound : measure s using Nat.strongRecOn generalizing s with
  | ind bound ih =>
      by_cases hdone : done s
      · exact ⟨0, Nat.zero_le _, s, rfl, hstart, hdone⟩
      · obtain ⟨next, hnext, hinv, hless⟩ := hstep s hstart hdone
        obtain ⟨n, hn, last, hrun, hlast⟩ := ih (measure next) (hbound ▸ hless) hinv rfl
        refine ⟨n + 1, by omega, last, ?_, hlast⟩
        rw [List.replicate_succ, run, hnext]
        exact hrun

/-- A map that commutes with the steps commutes with the runs. -/
theorem run_map {Other : Type*} {step' : Other → Label → Option Other} {f : State → Other}
    (hstep : ∀ s label next, step s label = some next → step' (f s) label = some (f next))
    {labels : List Label} {s last : State} (hrun : run step s labels = some last) :
    run step' (f s) labels = some (f last) := by
  induction labels generalizing s with
  | nil => exact congrArg (fun s => some (f s)) (Option.some.inj hrun)
  | cons label rest ih =>
      obtain ⟨next, hnext, hrest⟩ := Option.bind_eq_some_iff.mp hrun
      rw [run, hstep s label next hnext]
      exact ih hrest

/-- A guarded run is a run. -/
theorem run_of_guarded {guard : State → Label → Bool} {labels : List Label} {s next : State}
    (hrun : run (guarded step guard) s labels = some next) : run step s labels = some next := by
  induction labels generalizing s with
  | nil => exact hrun
  | cons label rest ih =>
      obtain ⟨middle, hguarded, hrest⟩ := Option.bind_eq_some_iff.mp hrun
      obtain ⟨_, hstep⟩ := guarded_eq_some_iff.mp hguarded
      rw [run, hstep]
      exact ih hrest

end Foundation.Transition
