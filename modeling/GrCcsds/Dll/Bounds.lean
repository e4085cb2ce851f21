import GrCcsds.Dll.Position

/-! # Buffers and consumption

With timing errors of less than half a symbol every interpolation reads within
the input: the loop looks one symbol ahead before it goes on. The samples that a
call consumes are those before its last basepoint, and the last update may lead
behind the end of the input. The first call outputs two symbols.
-/

namespace GrCcsds.Dll

open Foundation Foundation.Fractional

variable {K Other : Type} [Field K] [LinearOrder K] [FloorRing K]

/-- The four samples of an interpolation are part of the input, and a call returns no more than
it was asked for and consumes no more than there is. -/
def Event.Inside : Event K → Prop
  | .interpolated ninputItems first _ => 0 ≤ first ∧ first + 3 < ninputItems
  | .updated .. => True
  | .returned noutputItems ninputItems produced consumed =>
    produced ≤ noutputItems ∧ consumed ≤ ninputItems

namespace Machine

def Inside (m : Machine K Other) : Prop := ∀ event ∈ m.log, event.Inside

/-- Calls ask for at least one symbol, and timing errors are smaller than half a symbol. -/
def SmallErrors (cfg : Config K) (m : Machine K Other) (label : Label K Other) : Prop :=
  match m.point, label with
  | .idle, .work call => 1 ≤ call.noutputItems
  | .adjust .., .proceed => |m.nextGammaEps cfg| < cfg.osfHalf
  | _, _ => True

/-- The first symbols find space for two, and the next basepoint is at most one sample behind
the end of the input. -/
def FitsBuffers (cfg : Config K) (m : Machine K Other) (label : Label K Other) : Prop :=
  match m.point, label with
  | .adjust call _, .proceed =>
    (m.members.init = false → 2 ≤ call.noutputItems) ∧
      (m.members.l : K) + m.adjusted cfg < ((call.ninputItems + 2 : Nat) : K)
  | _, _ => True

/-- What the position of the loop says about the indices. -/
def Ready (cfg : Config K) (m : Machine K Other) : Prop :=
  match m.point with
  | .idle => m.members.init = true → m.members.l = 1
  | .intermediate call numOut => 1 ≤ m.members.l ∧
    m.members.l + getInt (m.halfSymbol cfg) + 3 ≤ call.ninputItems ∧
    (m.members.init = true → numOut < call.noutputItems)
  | .current call numOut => 1 ≤ m.members.l ∧ m.members.l + 3 ≤ call.ninputItems ∧
    (m.members.init = true → numOut < call.noutputItems)
  | .adjust call numOut => 1 ≤ m.members.l ∧ m.members.l + 3 ≤ call.ninputItems ∧
    (m.members.init = true → numOut ≤ call.noutputItems)

/-- The state of a run whose events so far are inside the buffers. -/
structure Bounded (cfg : Config K) (m : Machine K Other) : Prop where
  fractional : m.Fractional
  inside : m.Inside
  ready : m.Ready cfg

variable {cfg : Config K} {m : Machine K Other} {call : Call K Other} {numOut : Nat}

omit [Field K] [LinearOrder K] [FloorRing K] in
theorem inside_append_iff {log : List (Event K)} {event : Event K} :
    (∀ other ∈ log ++ [event], other.Inside) ↔ (∀ other ∈ log, other.Inside) ∧ event.Inside := by
  rw [List.forall_mem_append, List.forall_mem_singleton]

theorem inside_moveTo_iff {position : K} : (m.moveTo position).Inside ↔ m.Inside :=
  inside_append_iff.trans (and_iff_left trivial)

theorem getInt_nonneg {position : K} (hposition : 0 ≤ position) : 0 ≤ getInt position :=
  Int.floor_nonneg.mpr hposition

/-- Two updates lead as far as one to their sum. -/
theorem getInt_add_getInt [IsStrictOrderedRing K] {position : K} (hposition : 0 ≤ position)
    (shift : K) :
    getInt position + getInt (getFrac position + shift) = getInt (position + shift) := by
  have hsplit : position + shift = (getFrac position + shift) + (⌊position⌋ : K) := by
    rw [getFrac, remainderOne_of_nonneg hposition, Int.fract]
    ring
  rw [hsplit, getInt, getInt, getInt, Int.floor_add_intCast, add_comm]

variable [IsStrictOrderedRing K]

omit [IsStrictOrderedRing K] in
theorem osfHalf_add_osfHalf (cfg : Config K) : cfg.osfHalf + cfg.osfHalf = (cfg.osf : K) := by
  unfold Config.osfHalf
  push_cast
  exact add_halves _

theorem osfHalf_nonneg (cfg : Config K) : 0 ≤ cfg.osfHalf := by
  unfold Config.osfHalf
  positivity

/-- Half a symbol ahead of a fraction is at most a symbol ahead. -/
theorem getInt_halfSymbol_le (hmu : m.members.mu < 1) : getInt (m.halfSymbol cfg) ≤ cfg.osf := by
  have hosf := osfHalf_add_osfHalf cfg
  have hhalf := osfHalf_nonneg cfg
  rw [getInt, ← Int.lt_add_one_iff, Int.floor_lt, halfSymbol]
  push_cast
  linarith

/-- The first two symbols are a symbol apart. -/
theorem ready_firstSymbol (henough : ¬ call.ninputItems < cfg.osf + 4)
    (hinit : m.members.init = false) :
    ((m.firstSymbol call).moveTo ((m.firstSymbol call).halfSymbol cfg)).Ready cfg := by
  have hhalf : (m.firstSymbol call).halfSymbol cfg = cfg.osfHalf := zero_add _
  have hahead := getInt_nonneg (osfHalf_nonneg cfg)
  have hsymbol : getInt cfg.osfHalf + getInt (getFrac cfg.osfHalf + cfg.osfHalf) = cfg.osf := by
    rw [getInt_add_getInt (osfHalf_nonneg cfg), osfHalf_add_osfHalf, getInt, Int.floor_natCast]
  rw [hhalf]
  refine ⟨?_, ?_, fun htrue => ?_⟩
  · change 1 ≤ 1 + getInt cfg.osfHalf
    omega
  · change 1 + getInt cfg.osfHalf + getInt (getFrac cfg.osfHalf + cfg.osfHalf) + 3 ≤
      (call.ninputItems : Int)
    omega
  · exact absurd (hinit.symm.trans htrue) nofun

theorem Bounded.begin (hm : m.Bounded cfg) (hidle : m.point = .idle)
    (hspace : 1 ≤ call.noutputItems) : (m.begin cfg call).Bounded cfg := by
  have hready := hm.ready
  unfold Ready at hready
  rw [hidle] at hready
  refine ⟨hm.fractional.begin, ?_, ?_⟩
  · unfold Machine.begin
    split
    next => exact inside_append_iff.mpr ⟨hm.inside, Nat.zero_le _, Int.natCast_nonneg _⟩
    next =>
      split
      next => exact hm.inside
      next => exact inside_moveTo_iff.mpr hm.inside
  · unfold Machine.begin
    split
    next =>
      unfold Ready
      simpa only [hidle] using hready
    next henough =>
      split
      next hinit =>
        have hmu := (hm.fractional.mu (Or.inl hinit)).2
        have hle : getInt (m.halfSymbol cfg) ≤ cfg.osf := getInt_halfSymbol_le hmu
        have hl := hready hinit
        refine ⟨hl.ge, ?_, fun _ => hspace⟩
        change m.members.l + getInt (m.halfSymbol cfg) + 3 ≤ call.ninputItems
        omega
      next hfirst => exact ready_firstSymbol henough (Bool.eq_false_of_not_eq_true hfirst)

theorem Bounded.intermediate (hm : m.Bounded cfg) (hpoint : m.point = .intermediate call numOut) :
    (m.intermediate cfg call numOut).Bounded cfg := by
  have hpositioned : m.Positioned := Or.inr (hpoint ▸ nofun)
  obtain ⟨hmu, -⟩ := hm.fractional.mu hpositioned
  have hready := hm.ready
  unfold Ready at hready
  rw [hpoint] at hready
  obtain ⟨hl, hinput, hspace⟩ := hready
  have hahead : 0 ≤ getInt (m.halfSymbol cfg) := getInt_nonneg (halfSymbol_nonneg hmu)
  have hread : (m.read call).Inside := by
    change 0 ≤ m.members.l - 1 ∧ m.members.l - 1 + 3 < call.ninputItems
    omega
  refine ⟨hm.fractional.intermediate hpositioned, ?_, ?_, ?_, hspace⟩
  · exact inside_moveTo_iff.mpr (inside_append_iff.mpr ⟨hm.inside, hread⟩)
  · change 1 ≤ m.members.l + getInt (m.halfSymbol cfg)
    omega
  · change m.members.l + getInt (m.halfSymbol cfg) + 3 ≤ (call.ninputItems : Int)
    exact hinput

omit [IsStrictOrderedRing K] in
theorem Bounded.current (hm : m.Bounded cfg) (hpoint : m.point = .current call numOut) :
    (m.current call numOut).Bounded cfg := by
  have hready := hm.ready
  unfold Ready at hready
  rw [hpoint] at hready
  obtain ⟨hl, hinput, hspace⟩ := hready
  have hread : (m.read call).Inside := by
    change 0 ≤ m.members.l - 1 ∧ m.members.l - 1 + 3 < call.ninputItems
    omega
  refine ⟨hm.fractional.current (Or.inr (hpoint ▸ nofun)),
    inside_append_iff.mpr ⟨hm.inside, hread⟩, hl, hinput, fun hinit => ?_⟩
  have hflag : m.members.init = true := hinit
  rw [if_pos hflag]
  exact hspace hflag

omit [FloorRing K] in
/-- A small error leads ahead of the basepoint. -/
theorem adjusted_pos (hmu : 0 ≤ m.members.mu) (hsmall : |m.nextGammaEps cfg| < cfg.osfHalf) :
    0 < m.adjusted cfg := by
  have hlow := (abs_lt.mp hsmall).1
  unfold adjusted
  linarith

/-- The update with the timing error stays inside the buffers if and only if its condition
holds. -/
theorem inside_adjust_iff (hm : m.Bounded cfg) (hpoint : m.point = .adjust call numOut)
    (hsmall : |m.nextGammaEps cfg| < cfg.osfHalf) :
    (m.adjust cfg call numOut).Inside ↔
      (m.members.init = false → 2 ≤ call.noutputItems) ∧
        (m.members.l : K) + m.adjusted cfg < ((call.ninputItems + 2 : Nat) : K) := by
  obtain ⟨hmu, -⟩ := hm.fractional.mu (Or.inr (hpoint ▸ nofun))
  have hready := hm.ready
  unfold Ready at hready
  rw [hpoint] at hready
  obtain ⟨-, -, hspace⟩ := hready
  have hpositive := adjusted_pos hmu hsmall
  have hconsumed : (m.members.l : K) + m.adjusted cfg < ((call.ninputItems + 2 : Nat) : K) ↔
      m.members.l + getInt (m.adjusted cfg) - 1 ≤ (call.ninputItems : Int) := by
    have hfloor : getInt (m.adjusted cfg) < call.ninputItems + 2 - m.members.l ↔
        m.adjusted cfg < ((call.ninputItems + 2 - m.members.l : Int) : K) := Int.floor_lt
    rw [← lt_sub_iff_add_lt']
    push_cast at hfloor ⊢
    rw [← hfloor]
    omega
  obtain ⟨-, hmuNext, hcases⟩ := adjust_cases cfg m call numOut
  rw [hconsumed]
  rcases hcases with ⟨-, hinit, -, hmore, -, hlog⟩ | ⟨-, -, hlog⟩
  · have hinside : (m.adjust cfg call numOut).Inside := by
      unfold Inside
      rw [hlog]
      exact inside_moveTo_iff.mpr hm.inside
    have hmuPos := (getFrac_mem (Or.inl hpositive.le)).1
    have hhalf : 0 ≤ getFrac (m.adjusted cfg) + cfg.osfHalf := add_nonneg hmuPos (osfHalf_nonneg cfg)
    have hahead := getInt_nonneg hhalf
    refine iff_of_true hinside ⟨fun hfalse => absurd (hinit.symm.trans hfalse) nofun, ?_⟩
    omega
  · have hbefore : ∀ event ∈ (m.moveTo (m.adjusted cfg)).log, event.Inside :=
      inside_moveTo_iff.mpr hm.inside
    unfold Inside
    rw [hlog, inside_append_iff, and_iff_right hbefore]
    refine and_congr_left fun _ => ?_
    cases hinit : m.members.init with
    | true => exact iff_of_true (hspace hinit) nofun
    | false => exact ⟨fun h _ => h, fun h => h rfl⟩

theorem Bounded.adjust (hm : m.Bounded cfg) (hpoint : m.point = .adjust call numOut)
    (hsmall : |m.nextGammaEps cfg| < cfg.osfHalf) (hinside : (m.adjust cfg call numOut).Inside) :
    (m.adjust cfg call numOut).Bounded cfg := by
  obtain ⟨hmu, -⟩ := hm.fractional.mu (Or.inr (hpoint ▸ nofun))
  have hready := hm.ready
  unfold Ready at hready
  rw [hpoint] at hready
  obtain ⟨hl, -⟩ := hready
  have hpositive := adjusted_pos hmu hsmall
  have hahead := getInt_nonneg hpositive.le
  obtain ⟨-, hmuNext, hcases⟩ := adjust_cases cfg m call numOut
  refine ⟨(fractional_adjust_iff hm.fractional).mpr (Or.inl hpositive.le), hinside, ?_⟩
  unfold Ready
  rcases hcases with ⟨hnext, -, hlNext, hmore, hspace, -⟩ | ⟨hnext, hlNext, -⟩
  · rw [hnext]
    refine ⟨?_, ?_, fun _ => hspace⟩
    · rw [hlNext]
      omega
    · rw [hlNext, halfSymbol, hmuNext]
      exact hmore
  · rw [hnext]
    exact fun _ => hlNext

/-- With up to four samples for each symbol, three samples behind the basepoint are enough. -/
theorem position_fits_of_osf_le_four (hosf : cfg.osf ≤ 4) (hm : m.Bounded cfg)
    (hpoint : m.point = .adjust call numOut) (hsmall : |m.nextGammaEps cfg| < cfg.osfHalf) :
    (m.members.l : K) + m.adjusted cfg < ((call.ninputItems + 2 : Nat) : K) := by
  obtain ⟨-, hmu⟩ := hm.fractional.mu (Or.inr (hpoint ▸ nofun))
  have hready := hm.ready
  unfold Ready at hready
  rw [hpoint] at hready
  have hinput : (m.members.l : K) + 3 ≤ (call.ninputItems : K) := by exact_mod_cast hready.2.1
  have hsymbol : cfg.osfHalf + cfg.osfHalf ≤ 4 := by
    rw [osfHalf_add_osfHalf]
    exact_mod_cast hosf
  have hhigh := (abs_lt.mp hsmall).2
  unfold adjusted
  push_cast
  linarith

/-- With small errors, exactly the steps that meet the condition stay inside the buffers. -/
theorem inside_step_iff (hm : m.Bounded cfg) {label : Label K Other}
    (hsmall : m.SmallErrors cfg label) :
    (∀ next, m.step cfg label = some next → next.Inside) ↔ m.FitsBuffers cfg label := by
  unfold FitsBuffers
  split
  next _ _ call numOut hpoint =>
    unfold SmallErrors at hsmall
    rw [hpoint] at hsmall
    rw [← inside_adjust_iff hm hpoint hsmall, step_adjust hpoint]
    exact ⟨fun hall => hall _ rfl, fun hadjust next hnext => Option.some.inj hnext ▸ hadjust⟩
  next hother =>
    refine iff_of_true (fun next hstep => ?_) trivial
    unfold step at hstep
    split at hstep
    next hpoint =>
      cases hstep
      unfold SmallErrors at hsmall
      rw [hpoint] at hsmall
      exact (hm.begin hpoint hsmall).inside
    next hpoint =>
      cases hstep
      exact (hm.intermediate hpoint).inside
    next hpoint =>
      cases hstep
      exact (hm.current hpoint).inside
    next hpoint => exact (hother _ _ hpoint rfl).elim
    next => cases hstep

theorem Bounded.step {label : Label K Other} {next : Machine K Other} (hm : m.Bounded cfg)
    (hsmall : m.SmallErrors cfg label) (hinside : next.Inside)
    (hstep : m.step cfg label = some next) : next.Bounded cfg := by
  unfold Machine.step at hstep
  unfold SmallErrors at hsmall
  split at hstep
  next hpoint =>
    cases hstep
    rw [hpoint] at hsmall
    exact hm.begin hpoint hsmall
  next hpoint =>
    cases hstep
    exact hm.intermediate hpoint
  next hpoint =>
    cases hstep
    exact hm.current hpoint
  next hpoint =>
    cases hstep
    rw [hpoint] at hsmall
    exact hm.adjust hpoint hsmall hinside
  next => cases hstep

/-- In a run with small errors all reads, outputs and consumptions are inside the buffers if
and only if the first call has space for two symbols and no update leads further behind the end
of the input than one sample. -/
theorem inside_buffers_iff (cfg : Config K) (members : Members K) {labels : List (Label K Other)}
    (hsmall : Transition.Along (step cfg) (SmallErrors cfg) (start members) labels) :
    Transition.Along (step cfg)
        (fun m label => ∀ next, m.step cfg label = some next → next.Inside)
        (start members) labels ↔
      Transition.Along (step cfg) (FitsBuffers cfg) (start members) labels := by
  have hstart : (start members : Machine K Other).Bounded cfg :=
    ⟨fractional_start members, nofun, nofun⟩
  refine Transition.along_iff_of_invariant ?_ ?_ hsmall hstart
  · intro m label hm herrors
    exact inside_step_iff hm herrors
  · intro m label next hm herrors hall hstep
    exact hm.step herrors (hall next hstep) hstep

/-- With up to four samples for each symbol only the space of the first call matters. -/
theorem fits_buffers_iff_of_osf_le_four (hosf : cfg.osf ≤ 4) (hm : m.Bounded cfg)
    (hpoint : m.point = .adjust call numOut) (hsmall : m.SmallErrors cfg .proceed) :
    m.FitsBuffers cfg .proceed ↔ (m.members.init = false → 2 ≤ call.noutputItems) := by
  unfold SmallErrors at hsmall
  unfold FitsBuffers
  rw [hpoint] at hsmall ⊢
  exact and_iff_left (position_fits_of_osf_le_four hosf hm hpoint hsmall)

/-- The first symbols of a call and one further symbol of the next call. -/
theorem inside_buffers_iff_slow : Transition.Along (step halfStep)
    (fun m label => ∀ next, m.step halfStep label = some next → next.Inside)
    (start unset) (firstSymbols (risingCall 1 1) ++ firstSymbols (risingCall 1 1)) := by
  refine (inside_buffers_iff halfStep unset ?_).mpr ?_
  · refine ⟨show 1 ≤ 2 by decide, ?_⟩
    rintro next ⟨⟩
    refine ⟨trivial, ?_⟩
    rintro next ⟨⟩
    refine ⟨trivial, ?_⟩
    rintro next ⟨⟩
    refine ⟨show |_| < _ by decide +kernel, ?_⟩
    rintro next ⟨⟩
    refine ⟨show 1 ≤ 2 by decide, ?_⟩
    rintro next ⟨⟩
    refine ⟨trivial, ?_⟩
    rintro next ⟨⟩
    refine ⟨trivial, ?_⟩
    rintro next ⟨⟩
    exact ⟨show |_| < _ by decide +kernel, fun _ _ => trivial⟩
  · refine ⟨trivial, ?_⟩
    rintro next ⟨⟩
    refine ⟨trivial, ?_⟩
    rintro next ⟨⟩
    refine ⟨trivial, ?_⟩
    rintro next ⟨⟩
    refine ⟨⟨fun _ => le_rfl, by decide +kernel⟩, ?_⟩
    rintro next ⟨⟩
    refine ⟨trivial, ?_⟩
    rintro next ⟨⟩
    refine ⟨trivial, ?_⟩
    rintro next ⟨⟩
    refine ⟨trivial, ?_⟩
    rintro next ⟨⟩
    exact ⟨⟨fun _ => le_rfl, by decide +kernel⟩, fun _ _ => trivial⟩

/-- Ten samples for each symbol. -/
def tenSamples : Config ℚ where
  osf := 10
  gamma := 1

/-- What the block asks for to output one symbol. -/
def silentCall : Call ℚ Unit where
  noutputItems := 1
  ninputItems := 14
  input := fun _ => 0
  tags := []

/-- The first call outputs two symbols and consumes fifteen samples. -/
theorem first_call_beyond_buffers :
    Transition.Along (step tenSamples) (SmallErrors tenSamples) (start unset)
      (firstSymbols silentCall) ∧
    ((Transition.run (step tenSamples) (start unset) (firstSymbols silentCall)).bind
      fun m => m.log.getLast?) = some (.returned 1 14 2 15) ∧
    ¬ Transition.Along (step tenSamples)
      (fun m label => ∀ next, m.step tenSamples label = some next → next.Inside)
      (start unset) (firstSymbols silentCall) := by
  have hlast : ((Transition.run (step tenSamples) (start unset)
      (firstSymbols silentCall)).bind fun m => m.log.getLast?) =
        some (.returned 1 14 2 15) := by
    decide +kernel
  refine ⟨?_, hlast, fun halong => ?_⟩
  · refine ⟨show 1 ≤ 1 by decide, ?_⟩
    rintro next ⟨⟩
    refine ⟨trivial, ?_⟩
    rintro next ⟨⟩
    refine ⟨trivial, ?_⟩
    rintro next ⟨⟩
    exact ⟨show |_| < _ by decide +kernel, fun _ _ => trivial⟩
  · obtain ⟨m, hrun, hevent⟩ := Option.bind_eq_some_iff.mp hlast
    have hinside := halong.last (p := Inside) nofun hrun
    have hspace := (hinside _ (List.mem_of_getLast? hevent)).1
    exact absurd hspace (by decide)

end Machine

end GrCcsds.Dll
