import GrCcsds.BlockPrefix.Stream

/-! # The forecast of the prefixed stream

For a multiple of the length of a framed block, the forecast is the number of
data bytes in it, wherever the block stands. This many bytes fill the output,
since the loop only stops before a byte that it has no input for, and with fewer
bytes the output cannot be reached.
-/

namespace GrCcsds.BlockPrefix

open Foundation Foundation.Framing Utils

/-- The outputs that remain behind a block of which the first bytes may have been sent, and the
inputs that it needs. -/
def forecastBlock (c : Config) (prefixMissing numOutRemaining : Nat) : Nat × Nat :=
  let numOutRemaining := numOutRemaining - pickSmaller prefixMissing numOutRemaining
  let toCopy := pickSmaller numOutRemaining c.blockLen
  (numOutRemaining - toCopy, toCopy)

/-- The input that `forecast` requires. A failed assertion is `none`. -/
def forecast (c : Config) (blockCounter noutputItems : Nat) : Option Nat :=
  if 0 < noutputItems then
    -- a first block whose data part has been begun is not looked at
    let (numOutRemaining, first) :=
      if blockCounter < c.prefixLen then
        forecastBlock c (c.prefixLen - blockCounter) noutputItems
      else (noutputItems, 0)
    let numFullBlocks := numOutRemaining / c.outputBlockLen
    let numOutRemaining := numOutRemaining - numFullBlocks * c.outputBlockLen
    let last := if numOutRemaining > 0 then (forecastBlock c c.prefixLen numOutRemaining).2 else 0
    some (first + numFullBlocks * c.blockLen + last)
  else none

variable {c : Config} {input : Nat → UInt8} {s : Session} {call : Call}

/-- Every framed block needs its data bytes. -/
theorem forecast_blocks (hblock : 1 ≤ c.blockLen) {blocks : Nat} (hblocks : 0 < blocks)
    (blockCounter : Nat) :
    forecast c blockCounter (blocks * c.outputBlockLen) = some (blocks * c.blockLen) := by
  have hlength : 0 < c.outputBlockLen := Nat.add_pos_right _ hblock
  obtain ⟨full, rfl⟩ := Nat.exists_eq_add_of_lt hblocks
  rw [Nat.zero_add]
  unfold forecast
  rw [if_pos (Nat.mul_pos full.succ_pos hlength)]
  by_cases hpart : blockCounter < c.prefixLen
  · -- the first block ends within the output, and the last one within its prefix
    have hnoutput : (full + 1) * c.outputBlockLen =
        full * c.outputBlockLen + c.prefixLen + c.blockLen := by
      rw [Nat.succ_mul, Nat.add_assoc]
      rfl
    have hfirst : forecastBlock c (c.prefixLen - blockCounter) ((full + 1) * c.outputBlockLen) =
        (full * c.outputBlockLen + blockCounter, c.blockLen) := by
      simp only [forecastBlock, pickSmaller_eq_min, hnoutput, Prod.mk.injEq]
      omega
    have hcounter : blockCounter < c.outputBlockLen := Nat.lt_add_right _ hpart
    have hdivision : (full * c.outputBlockLen + blockCounter) / c.outputBlockLen = full := by
      rw [Nat.mul_comm, Nat.mul_add_div hlength, Nat.div_eq_of_lt hcounter, Nat.add_zero]
    rw [if_pos hpart, hfirst]
    simp only [hdivision, Nat.add_sub_cancel_left, forecastBlock, pickSmaller_eq_min,
      Nat.min_eq_right hpart.le, Nat.sub_self, Nat.zero_min, ite_self, Nat.add_zero]
    rw [Nat.succ_mul, Nat.add_comm]
  · rw [if_neg hpart]
    simp [Nat.mul_div_cancel _ hlength]

/-- Without input, the assertion that progress has been made fails in the data part. -/
theorem iteration_of_noInput {w : Work} (hempty : w.out = [])
    (hpart : c.prefixLen ≤ w.blockCounter) (noutputItems : Nat) :
    iteration c [] noutputItems w = none := by
  have hproduce : ∀ produced ∈ produce c [] (noutputItems - w.out.length) w,
      produced.1.length = 0 := by
    intro produced hproduced
    unfold produce at hproduced
    rw [if_neg (Nat.not_lt_of_le hpart)] at hproduced
    split at hproduced
    · obtain ⟨copied, hcopied, rfl⟩ := Option.map_eq_some_iff.mp hproduced
      unfold memcpy at hcopied
      split at hcopied
      · cases hcopied
        simp
      · cases hcopied
    · cases hproduced
  unfold iteration
  split
  · cases hresult : produce c [] (noutputItems - w.out.length) w with
    | none => rfl
    | some produced =>
        have hnothing := hproduce produced hresult
        simp [hempty, hnothing]
  · rfl

/-- The calls that return are those that the scheduler makes. -/
theorem Session.permitted_of_step {next : Session} (hstep : s.step c input call = some next) :
    s.Permitted c call := by
  obtain ⟨w, hwork, -⟩ := Option.map_eq_some_iff.mp hstep
  unfold generalWork at hwork
  split at hwork
  next hspace =>
    refine ⟨hspace, fun hpart => Nat.pos_of_ne_zero fun hnone => ?_⟩
    obtain ⟨iterations, hiterations⟩ := Nat.exists_eq_succ_of_ne_zero (Nat.ne_of_gt hspace)
    have hinput : available input s.consumed call.ninputItems = [] := by simp [available, hnone]
    rw [hinput, hiterations, workLoop, iteration_of_noInput rfl hpart] at hwork
    simp at hwork
  next => cases hwork

/-- Whatever calls have returned before. -/
theorem Session.streams_of_returned (hblock : 0 < c.outputBlockLen)
    (hreachable : Transition.Reachable (Session.step c input) (fun _ _ => True) .initial s) :
    s.Streams c input := by
  apply streams_of_reachable hblock
  refine (Transition.Reachable.congr fun _ _ _ hstep => ?_).mp hreachable
  exact iff_of_true trivial (permitted_of_step hstep)

/-- The bytes consumed after some more output. -/
theorem Work.Follows.consumed_eq {w : Work} (hfollows : w.Follows c input s call) :
    s.consumed + w.numInTotal =
      Nat.count (IsData c.prefixLen c.blockLen) (s.out.length + w.out.length) := by
  rw [← List.length_append]
  exact hfollows.stands.consumed_eq hfollows.counter_lt

/-- Framed blocks as output have their data as input. -/
theorem Session.Streams.consumed_blocks (hstreams : s.Streams c input) (blocks : Nat) :
    Nat.count (IsData c.prefixLen c.blockLen) (s.out.length + blocks * c.outputBlockLen) =
      s.consumed + blocks * c.blockLen := by
  have hbefore : s.consumed = Nat.count (IsData c.prefixLen c.blockLen) s.out.length :=
    hstreams.stands.consumed_eq hstreams.counter_lt
  rw [hbefore]
  exact count_isData_add_mul s.out.length blocks

/-- In every state that calls lead to, the input of the forecast fills an output of framed
blocks and is used up, and less input does not fill it. -/
theorem forecast_exact (hblock : 1 ≤ c.blockLen)
    (hreachable : Transition.Reachable (Session.step c input) (fun _ _ => True) .initial s)
    {noutputItems : Nat} (hspace : 0 < noutputItems) (hdvd : c.outputBlockLen ∣ noutputItems) :
    ∃ required, forecast c s.blockCounter noutputItems = some required ∧ 0 < required ∧
      (∃ w, generalWork c s.blockCounter noutputItems (available input s.consumed required) =
          some w ∧
        w.out.length = noutputItems ∧ w.numInTotal = required) ∧
      ∀ fewer < required, ∀ w,
        generalWork c s.blockCounter noutputItems (available input s.consumed fewer) = some w →
        w.out.length < noutputItems := by
  have hlength : 0 < c.outputBlockLen := Nat.add_pos_right _ hblock
  have hstreams := Session.streams_of_returned hlength hreachable
  obtain ⟨blocks, rfl⟩ := hdvd
  rw [Nat.mul_comm] at hspace ⊢
  have hblocks : 0 < blocks := Nat.pos_of_mul_pos_right hspace
  have hrequired : 0 < blocks * c.blockLen := Nat.mul_pos hblocks hblock
  have hgoal := hstreams.consumed_blocks blocks
  refine ⟨_, forecast_blocks hblock hblocks s.blockCounter, hrequired, ?_, ?_⟩
  · have hpermitted : s.Permitted c ⟨blocks * c.outputBlockLen, blocks * c.blockLen⟩ :=
      ⟨hspace, fun _ => hrequired⟩
    obtain ⟨w, hwork, hfollows, hend⟩ := Session.generalWork_spec hlength hstreams hpermitted
    have hconsumed := hfollows.consumed_eq
    have hfull : w.out.length = blocks * c.outputBlockLen := by
      rcases hend with hfull | hwaits
      · exact hfull
      · -- the byte before which the loop stops would be one more data byte
        by_contra hshort
        have hless : w.out.length < blocks * c.outputBlockLen :=
          Nat.lt_of_le_of_ne hfollows.length_out_le hshort
        have hdata : IsData c.prefixLen c.blockLen (s.out.length + w.out.length) := by
          rw [← List.length_append]
          exact (hfollows.stands.isData_iff hfollows.counter_lt).mpr hwaits.prefixLen_le
        have hmore := Nat.count_strict_mono hdata (Nat.add_lt_add_left hless s.out.length)
        rw [hgoal, ← hconsumed, hwaits.numInTotal_eq] at hmore
        exact Nat.lt_irrefl _ hmore
    refine ⟨w, hwork, hfull, ?_⟩
    rw [hfull, hgoal] at hconsumed
    exact Nat.add_left_cancel hconsumed
  · intro fewer hfewer w hwork
    have hstep : s.step c input ⟨blocks * c.outputBlockLen, fewer⟩ = some
        { blockCounter := w.blockCounter
          out := s.out ++ w.out
          consumed := s.consumed + w.numInTotal } := by
      rw [Session.step, hwork]
      rfl
    obtain ⟨other, hother, hfollows, -⟩ :=
      Session.generalWork_spec hlength hstreams (Session.permitted_of_step hstep)
    cases hother.symm.trans hwork
    by_contra hfull
    have hconsumed := hfollows.consumed_eq
    have hused := hfollows.numInTotal_le
    rw [Nat.le_antisymm hfollows.length_out_le (Nat.le_of_not_lt hfull), hgoal] at hconsumed
    exact Nat.not_le_of_lt hfewer (Nat.add_left_cancel hconsumed ▸ hused)

/-- A forecast after the first byte of a data part. -/
theorem forecast_exact_interrupted : ∃ w,
    forecast ⟨[0x1A, 0xCF], 3⟩ 3 10 = some 6 ∧
      generalWork ⟨[0x1A, 0xCF], 3⟩ 3 10 (available UInt8.ofNat 1 6) = some w ∧
      w.out.length = 10 ∧ w.numInTotal = 6 := by
  let c : Config := ⟨[0x1A, 0xCF], 3⟩
  obtain ⟨s, hcalled, hsession⟩ := Option.map_eq_some_iff.mp
    (show (Session.step c UInt8.ofNat .initial ⟨9, 1⟩).map (fun s => (s.blockCounter, s.consumed)) =
      some (3, 1) by decide)
  obtain ⟨hcounter, hconsumed⟩ := Prod.mk.inj hsession
  have hspace : 0 < 10 := by decide
  have hdvd : c.outputBlockLen ∣ 10 := by decide
  obtain ⟨required, hforecast, -, ⟨w, hwork, hfull, hused⟩, -⟩ :=
    forecast_exact (by decide) (Transition.Reachable.refl.step trivial hcalled) hspace hdvd
  rw [hcounter] at hforecast hwork
  have hsix : required = 6 := Option.some.inj (hforecast.symm.trans (by decide))
  rw [hsix] at hforecast hwork hused
  rw [hconsumed] at hwork
  exact ⟨w, hforecast, hwork, hfull, hused⟩

end GrCcsds.BlockPrefix
