import GrCcsds.Ambiguity.Exhaustive
import GrCcsds.Ambiguity.TagReads

/-! # The tags that have been copied

In every run whose ranges are sound, every tag before the consumed bits has
been copied and the buffer holds the latest value under each key.
-/

namespace GrCcsds.Ambiguity

open Utils Foundation

variable {R : Type} [Arithmetic R]

/-- The block in a run and the tags that it has copied to its buffer, one after the other. -/
structure Recorded (R : Type) where
  machine : Machine R
  copied : List (Tag R)

namespace Recorded

def start : Recorded R := { machine := .start, copied := [] }

variable (cfg : Config R) (stream : Nat → R) (tags : List (Tag R))

def step (s : Recorded R) (label : Label) : Option (Recorded R) :=
  (s.machine.step cfg stream tags label).map fun next =>
    { machine := next
      copied := s.copied ++ s.machine.resolver.tags.copiesAll tags s.machine.nitemsRead
        (s.machine.tagCalls cfg stream tags label) }

/-- The calls of `updateTags` in a step are sound. -/
def SoundStep (s : Recorded R) (label : Label) : Prop :=
  TagStore.SoundAll tags s.machine.nitemsRead (s.machine.tagCalls cfg stream tags label) s.copied
    s.machine.resolver.tags

variable {cfg stream tags}

theorem step_cases {s next : Recorded R} {label : Label}
    (hstep : s.step cfg stream tags label = some next) :
    s.machine.step cfg stream tags label = some next.machine ∧
      next.copied = s.copied ++ s.machine.resolver.tags.copiesAll tags s.machine.nitemsRead
        (s.machine.tagCalls cfg stream tags label) := by
  obtain ⟨machine, hmachine, rfl⟩ := Option.map_eq_some_iff.mp hstep
  exact ⟨hmachine, rfl⟩

/-- Every step of the block is a step of a recorded run. -/
theorem reachable_machine {allowed : Recorded R → Label → Prop} {s : Recorded R}
    (hreachable : Transition.Reachable (step cfg stream tags) allowed start s) :
    Transition.Reachable (Machine.step cfg stream tags) (fun _ _ => True) .start s.machine := by
  apply hreachable.invariant .refl
  intro _ _ _ hbefore _ hstep
  exact hbefore.step trivial (step_cases hstep).1

/-- The recorded tags are complete unless an exception has stopped the block. -/
def IsCurrent (tags : List (Tag R)) (s : Recorded R) : Prop :=
  s.machine.point ≠ .raised →
    TagStore.Current tags s.machine.nitemsRead s.copied s.machine.resolver.tags

theorem isCurrent_start (hzero : ∀ tag ∈ tags, tag.offset ≠ 0) : start.IsCurrent tags := by
  refine fun _ => ⟨fun _ h => absurd h List.not_mem_nil, ?_, LatestValue.isLatest_nil⟩
  intro tag htag hbefore
  exact absurd (Nat.lt_one_iff.mp hbefore) (hzero tag htag)

theorem IsCurrent.step {s next : Recorded R} {label : Label} (hcurrent : s.IsCurrent tags)
    (hsorted : tags.Pairwise fun x y => x.offset ≤ y.offset)
    (hsound : s.SoundStep cfg stream tags label)
    (hstep : s.step cfg stream tags label = some next) : next.IsCurrent tags := by
  intro hraised
  obtain ⟨hmachine, hcopied⟩ := step_cases hstep
  have hbefore : s.machine.point ≠ .raised := by
    intro hpoint
    rw [Machine.step_of_raised hpoint] at hmachine
    cases hmachine
  have hs := hcurrent hbefore
  unfold SoundStep at hsound
  rw [hcopied]
  cases Machine.tagMove_of_step hmachine with
  | stay hframe hend htags hread hlog =>
      rw [hread, htags, Machine.tagCalls, hframe, hend]
      exact (List.append_nil s.copied).symm ▸ hs
  | finish numRead hframe hend htags hread hlog =>
      simp only [Machine.tagCalls, hframe, hend, Option.toList] at hsound ⊢
      rw [hread, htags, TagStore.copiesAll, TagStore.copiesAll, List.append_nil]
      exact hs.finish hsorted hsound.1
  | frame start header bits hframe hextract hread hlog =>
      simp only [Machine.tagCalls, hframe] at hsound ⊢
      rw [hread, TagStore.extractTags_store hextract]
      exact hs.updateAll hsorted hsound
  | raise hpoint htags hlog => exact absurd hpoint hraised

/-- The buffer holds what the recorded tags leave in it. -/
theorem buffer_of_reachable {allowed : Recorded R → Label → Prop} {s : Recorded R}
    (hreachable : Transition.Reachable (step cfg stream tags) allowed start s)
    (hraised : s.machine.point ≠ .raised) :
    s.machine.resolver.tags.buffer =
      s.copied.foldl (LatestValue.put Tag.key Tag.value) fun _ => none := by
  revert hraised
  apply hreachable.invariant
  · exact fun _ => rfl
  · intro before label next hbuffer _ hstep hraised
    obtain ⟨hmachine, hcopied⟩ := step_cases hstep
    have hbefore : before.machine.point ≠ .raised := by
      intro hpoint
      rw [Machine.step_of_raised hpoint] at hmachine
      cases hmachine
    rw [hcopied, List.foldl_append, ← hbuffer hbefore, ← TagStore.updateAll_buffer]
    cases Machine.tagMove_of_step hmachine with
    | stay hframe hend htags hread hlog => rw [htags, Machine.tagCalls, hframe, hend]; rfl
    | finish numRead hframe hend htags hread hlog =>
        rw [htags, Machine.tagCalls, hframe, hend]
        rfl
    | frame start header bits hframe hextract hread hlog =>
        rw [TagStore.extractTags_store hextract, Machine.tagCalls, hframe]
    | raise hpoint htags hlog => exact absurd hpoint hraised

end Recorded

/-- If no tag has offset zero and every range is sound, no call loses a tag. -/
theorem no_tag_lost {cfg : Config R} {stream : Nat → R} {tags : List (Tag R)}
    (hsorted : tags.Pairwise fun x y => x.offset ≤ y.offset)
    (hzero : ∀ tag ∈ tags, tag.offset ≠ 0) {s : Recorded R}
    (hreachable : Transition.Reachable (Recorded.step cfg stream tags)
      (Recorded.SoundStep cfg stream tags) .start s)
    (hidle : s.machine.point = .idle) :
    (∀ tag ∈ tags, tag.offset < s.machine.nitemsRead → tag ∈ s.copied) ∧
      LatestValue.IsLatest Tag.key Tag.value Tag.offset s.copied
        s.machine.resolver.tags.buffer := by
  have hcurrent : s.IsCurrent tags := by
    apply hreachable.invariant (Recorded.isCurrent_start hzero)
    intro _ _ _ hbefore hsound hstep
    exact hbefore.step hsorted hsound hstep
  have hs := hcurrent (by simp [hidle])
  refine ⟨?_, hs.latest⟩
  intro tag htag hread
  exact hs.complete tag htag (hread.trans_le (le_max_left _ _))

section Examples

open scoped ExactNumbers

/-- A tag with a number at an offset. -/
def numberTag (offset : Nat) : Tag ℚ :=
  { offset := offset, key := "number", value := .uint64 offset }

/-- A call that sees twelve bits and finds nothing. -/
def silentRun : List Label := [.work 12, .proceed, .proceed]

/-- The tags behind the first bit of a silent stream are copied. -/
theorem no_tag_lost_silence : ∃ s : Recorded ℚ,
    Transition.run (Recorded.step twoBitConfig (fun _ => 0) [numberTag 4, numberTag 9]) .start
        silentRun = some s ∧
      numberTag 4 ∈ s.copied ∧ numberTag 9 ∈ s.copied := by
  let tags := [numberTag 4, numberTag 9]
  let step := Recorded.step twoBitConfig (fun _ => 0) tags
  let called : Recorded ℚ :=
    { machine := { Machine.start with point := .loop 12 0 }, copied := [] }
  have hcall : step .start (.work 12) = some called := rfl
  obtain ⟨searched, hsearch, hsearched⟩ := Option.map_eq_some_iff.mp
    (show (step called .proceed).map (fun s => (s.copied.length,
        s.machine.tagCalls twoBitConfig (fun _ => 0) tags .proceed,
        s.machine.resolver.tags.nextFrom s.machine.nitemsRead)) = some (0, [10], 1) by
      decide +kernel)
  obtain ⟨s, hfinish, hfinished⟩ := Option.map_eq_some_iff.mp
    (show ((step called .proceed).bind fun s => step s .proceed).map
        (fun s => (s.machine.point, s.machine.nitemsRead)) = some (.idle, 10) by
      decide +kernel)
  rw [hsearch, Option.bind_some] at hfinish
  simp only [Prod.mk.injEq, List.length_eq_zero_iff] at hsearched hfinished
  have hsilent : called.SoundStep twoBitConfig (fun _ => 0) tags .proceed := by
    have hnone : called.machine.tagCalls twoBitConfig (fun _ => 0) tags .proceed = [] := by
      decide +kernel
    rw [Recorded.SoundStep, hnone]
    trivial
  have hsound : searched.SoundStep twoBitConfig (fun _ => 0) tags .proceed := by
    rw [Recorded.SoundStep, hsearched.1, hsearched.2.1]
    refine ⟨?_, trivial⟩
    rw [TagStore.Sound, hsearched.2.2]
    exact fun _ => ⟨fun h => absurd h (by decide), fun _ _ _ h => absurd h List.not_mem_nil⟩
  have hreachable : Transition.Reachable step
      (Recorded.SoundStep twoBitConfig (fun _ => 0) tags) .start s :=
    ((Transition.Reachable.refl.step trivial hcall).step hsilent hsearch).step hsound hfinish
  have hcomplete := (no_tag_lost (by simp [tags, numberTag]) (by simp [tags, numberTag])
    hreachable hfinished.1).1
  rw [hfinished.2] at hcomplete
  refine ⟨s, ?_, hcomplete _ (by simp [tags]) (by decide), hcomplete _ (by simp [tags]) (by decide)⟩
  change (step .start (.work 12)).bind _ = some s
  rw [hcall, Option.bind_some]
  change (step called .proceed).bind _ = some s
  rw [hsearch, Option.bind_some]
  change (step searched .proceed).bind _ = some s
  rw [hfinish]
  rfl

/-- The first range of a run starts with offset one, so a tag at the first bit is lost. -/
theorem first_tag_lost : ∃ s : Recorded ℚ,
    Transition.run (Recorded.step twoBitConfig (fun _ => 0) [numberTag 0]) .start silentRun =
        some s ∧
      s.machine.point = .idle ∧ (numberTag 0).offset < s.machine.nitemsRead ∧
      numberTag 0 ∉ s.copied := by
  obtain ⟨s, hrun, hlast⟩ := Option.map_eq_some_iff.mp
    (show (Transition.run (Recorded.step twoBitConfig (fun _ => 0) [numberTag 0]) .start
        silentRun).map (fun s => (s.machine.point, s.machine.nitemsRead, s.copied.length)) =
          some (.idle, 10, 0) by decide +kernel)
  simp only [Prod.mk.injEq, List.length_eq_zero_iff] at hlast
  obtain ⟨hidle, hread, hcopied⟩ := hlast
  refine ⟨s, hrun, hidle, ?_, ?_⟩
  · rw [hread]
    decide
  · rw [hcopied]
    exact List.not_mem_nil

end Examples

end GrCcsds.Ambiguity
