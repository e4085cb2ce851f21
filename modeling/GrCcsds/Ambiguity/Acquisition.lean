import GrCcsds.Ambiguity.Termination

/-! # Acquisition

A stream whose first ASM is the best match of the search, and whose further ASMs
are recognised where the first one lets them expect. In every run the block locks
on the first ASM, never loses the lock, and at the end of each call has sent the
frames that the call has shown completely.
-/

namespace GrCcsds.Ambiguity

open Utils Foundation

section Log

variable {R : Type} [Arithmetic R] {cfg : Config R} {stream : Nat → R} {tags : List (Tag R)}

/-- A step records one event at most. -/
theorem Machine.log_step {m next : Machine R} {label : Label}
    (hstep : m.step cfg stream tags label = some next) :
    next.log = m.log ∨ ∃ event, next.log = m.log ++ [event] := by
  unfold step at hstep
  split at hstep
  next =>
    cases hstep
    exact .inl rfl
  next =>
    split at hstep
    next =>
      split at hstep
      next =>
        cases hstep
        exact .inl rfl
      next =>
        cases hstep
        unfold searchStep
        dsimp only
        split
        · exact .inr ⟨_, rfl⟩
        · exact .inl rfl
    next =>
      split at hstep
      next =>
        cases hstep
        exact .inl rfl
      next =>
        cases hstep
        unfold lockStep
        dsimp only
        split
        · split
          · split
            · exact .inl rfl
            · exact .inr ⟨_, rfl⟩
          · exact .inl rfl
        · split
          · exact .inl rfl
          · exact .inr ⟨_, rfl⟩
  next => cases hstep

/-- What may follow the messages of a lock that is never lost. -/
theorem Valid.next_message {messages : List (Message R)} {position ambiguity number : Nat}
    {correlation : R} {event : Event R}
    (hvalid : Valid cfg stream tags
      (.locked position ambiguity number correlation :: messages.map .message ++ [event]))
    (hkept : ∀ n, confidence cfg stream position ambiguity n ≠ none) :
    ∃ message, event = .message message := by
  have hfits := hvalid.fits
  have hcurrent := currentLock_messages [] messages position ambiguity number correlation
  rw [List.nil_append] at hcurrent
  rw [hcurrent] at hfits
  cases event with
  | message message => exact ⟨message, rfl⟩
  | locked => exact hfits.elim
  | lost => exact absurd hfits (hkept _)

/-- Checks that all succeed keep the confidence. -/
theorem confidence_ne_none {position ambiguity : Nat}
    (hkept : ∀ n, cfg.correlationThreshold < checkForAsm cfg (converted cfg stream ambiguity)
      (position + n * cfg.period + cfg.messageLen)) (n : Nat) :
    confidence cfg stream position ambiguity n ≠ none := by
  induction n with
  | zero => simp [confidence]
  | succ n ih =>
      obtain ⟨count, hcount⟩ := Option.ne_none_iff_exists'.mp ih
      rw [confidence, hcount, Option.bind_some, if_pos (hkept n)]
      exact Option.some_ne_none _

omit [Arithmetic R] in
theorem Machine.window_eq {m : Machine R} {numInput numConsumed : Nat}
    (hpoint : m.point = .loop numInput numConsumed) :
    m.window stream numConsumed = fun i => stream (m.base + i) := by
  rw [base_of_loop hpoint]
  rfl

/-- A candidate of an iteration as a correlation at an absolute position. -/
theorem Machine.candidate_window {m : Machine R} {numInput numConsumed : Nat}
    (htracks : Tracks cfg stream tags m) (hpoint : m.point = .loop numInput numConsumed)
    (havailable : cfg.searchLenMin ≤ numInput - numConsumed) (other : Nat) {offset : Nat}
    (hoffset : offset ≤ cfg.searchLen numInput numConsumed - cfg.asmLenBits) :
    candidate cfg (m.window stream numConsumed) (cfg.searchLen numInput numConsumed) other offset =
      checkForAsm cfg (converted cfg stream other) (m.base + offset) := by
  have hlen : cfg.asmLenBits ≤ cfg.searchLen numInput numConsumed :=
    asmLenBits_le_searchLen havailable
  apply checkForAsm_congr
  intro i hi
  rw [window_eq hpoint,
    convertAmbiguity_input htracks.aligned (searchLen_dvd cfg _ _) other (by omega)]
  congr 1
  omega

end Log

section Progress

variable {R : Type} [Arithmetic R] {cfg : Config R} {stream : Nat → R} {tags : List (Tag R)}

/-- A call ends when the input does not suffice for the next iteration, without an event. -/
theorem Machine.of_step_idle {m next : Machine R} {numInput numConsumed : Nat}
    (hpoint : m.point = .loop numInput numConsumed)
    (hstep : m.step cfg stream tags .proceed = some next) (hidle : next.point = .idle) :
    next.log = m.log ∧ numInput - numConsumed <
      match m.resolver.state with
      | .search => cfg.searchLenMin
      | .lock => m.resolver.checkLen cfg := by
  unfold step at hstep
  rw [hpoint] at hstep
  dsimp only at hstep
  split at hstep
  next hsearch =>
    split at hstep
    next hshort =>
      cases hstep
      exact ⟨rfl, by simpa only [hsearch] using hshort⟩
    next =>
      cases hstep
      unfold searchStep at hidle
      dsimp only at hidle
      split at hidle <;> cases hidle
  next hlock =>
    split at hstep
    next hshort =>
      cases hstep
      exact ⟨rfl, by simpa only [hlock] using hshort⟩
    next =>
      cases hstep
      unfold lockStep at hidle
      dsimp only at hidle
      split at hidle
      · split at hidle
        · split at hidle <;> cases hidle
        · cases hidle
      · split at hidle <;> cases hidle

/-- When a call ends in lock, every frame that the call has shown completely has been sent. -/
theorem Machine.sent_of_short {m : Machine R} {numInput numConsumed : Nat}
    (hreachable : Transition.Reachable (Machine.step cfg stream tags) (fun _ _ => True) start m)
    (hpoint : m.point = .loop numInput numConsumed) (hlock : m.resolver.state = .lock)
    (hshort : numInput - numConsumed < m.resolver.checkLen cfg) {messages : List (Message R)}
    {position ambiguity number : Nat} {correlation : R}
    (hlog : m.log = .locked position ambiguity number correlation :: messages.map .message)
    {k : Nat} (hshown : position + k * cfg.period + cfg.messageLen ≤
      cfg.lower (m.nitemsRead + numInput)) :
    k < messages.length := by
  have hraised : m.point ≠ .raised := by simp [hpoint]
  have htracks := tracks_of_reachable hreachable
  have hinside := (bounded_of_reachable hreachable).inside numInput numConsumed hpoint
  have hbase := base_of_loop hpoint
  have haligned := htracks.aligned
  have hlower := cfg.lower_le (m.nitemsRead + numInput)
  obtain ⟨lock, hcurrent, hcases⟩ := htracks.lock hraised hlock
  have hmessages := currentLock_messages [] messages position ambiguity number correlation
  rw [List.nil_append, ← hlog, hcurrent] at hmessages
  obtain rfl := Option.some.inj hmessages
  rcases hcases with ⟨hfilling, -⟩ | hchecking
  · -- less than a symbol is left, so the frame ends before the next bit
    have hsymbol : m.resolver.checkLen cfg ≤ cfg.ldM := by
      rw [Resolver.checkLen, if_pos hfilling.fill]
      exact getUpperMul_le (Nat.dvd_refl cfg.ldM) cfg.ldM_pos
    have hreached : cfg.lower (m.nitemsRead + numInput) ≤ m.base := by
      obtain ⟨whole, hwhole⟩ := getLowerMul_dvd cfg.ldM (m.nitemsRead + numInput)
      obtain ⟨symbols, hsymbols⟩ := haligned
      have hless : cfg.ldM * whole < cfg.ldM * (symbols + 1) := by
        rw [Nat.mul_succ, ← hsymbols, ← hwhole]
        change cfg.lower (m.nitemsRead + numInput) < _
        omega
      change getLowerMul cfg.ldM (m.nitemsRead + numInput) ≤ m.base
      rw [hwhole, hsymbols]
      exact Nat.mul_le_mul_left _ (Nat.le_of_lt_succ (Nat.lt_of_mul_lt_mul_left hless))
    refine (message_sent_iff hreachable hraised
      (show m.log = [] ++ .locked position ambiguity number correlation :: messages.map .message
        from hlog) k).mpr ?_
    omega
  · -- less than an ASM and a symbol is left, which is less than a period
    obtain ⟨n, hframes, -, hposition, -⟩ := hchecking.confidence
    dsimp only at hframes hposition
    have hneeded : m.resolver.checkLen cfg ≤
        cfg.asmLenBits + m.resolver.offsetBits + cfg.ldM := by
      rw [Resolver.checkLen, hchecking.fill, if_neg Bool.false_ne_true]
      refine getUpperMul_le (Nat.dvd_add (getLowerMul_dvd _ _) (Nat.dvd_refl _)) ?_ |>.trans
        (Nat.add_le_add_right (getLowerMul_le cfg.ldM _) _)
      have hsum := getLowerMul_add_mod cfg.ldM (cfg.asmLenBits + m.resolver.offsetBits)
      have hmod := Nat.mod_lt (cfg.asmLenBits + m.resolver.offsetBits) cfg.ldM_pos
      omega
    have hsymbol := cfg.ldM_le
    have hframe := cfg.le_frameLenBits
    by_contra hmore
    have hlater : (n + 1) * cfg.period ≤ k * cfg.period :=
      Nat.mul_le_mul_right _ (hframes ▸ Nat.le_of_not_lt hmore)
    rw [Nat.succ_mul] at hlater
    simp only [Config.period, Config.messageLen] at hlater hposition hshown
    omega

/-- The messages behind the first lock are its frames. -/
theorem Machine.isFrame_of_log {m : Machine R} (htracks : Tracks cfg stream tags m)
    {position ambiguity number : Nat} {correlation : R} {messages : List (Message R)}
    (hlog : m.log = .locked position ambiguity number correlation :: messages.map .message)
    {k : Nat} {message : Message R} (hmessage : messages[k]? = some message) :
    IsFrame cfg stream tags (position + k * cfg.period) ambiguity (number + k) correlation
      message := by
  have hvalid : Valid cfg stream tags
      ([] ++ .locked position ambiguity number correlation :: (messages.map .message ++ [])) := by
    rw [List.append_nil, List.nil_append, ← hlog]
    exact htracks.valid
  exact (hvalid.message hmessage).1

omit [Arithmetic R] in
/-- When a call ends in search in front of a position, it has not shown an ASM and a frame behind
that position. -/
theorem Machine.not_shown_of_short {m : Machine R} {numInput numConsumed first shown : Nat}
    (hinside : numConsumed ≤ numInput) (hpoint : m.point = .loop numInput numConsumed)
    (haligned : cfg.ldM ∣ m.base) (hshort : numInput - numConsumed < cfg.searchLenMin)
    (hbase : m.base ≤ first) (hlong : first + cfg.asmLenBits + cfg.messageLen ≤ shown) :
    ¬ shown ≤ cfg.lower (m.nitemsRead + numInput) := by
  intro hshown
  have hlower := cfg.lower_le (m.nitemsRead + numInput)
  have hsymbol := cfg.ldM_le
  have hframe := cfg.le_frameLenBits
  rw [base_of_loop hpoint] at haligned hbase
  have hneeded : cfg.searchLenMin ≤
      cfg.lower (m.nitemsRead + numInput) - (m.nitemsRead + numConsumed) := by
    refine getUpperMul_le (Nat.dvd_sub (getLowerMul_dvd _ _) haligned) ?_
    simp only [Config.messageLen] at hlong
    omega
  omega

end Progress

variable {K : Type} [Field K] [LinearOrder K] [FloorRing K]

open scoped ExactNumbers

/-- A stream with its first ASM at a position. No match before it is above the threshold, none
that a search sees together with it is better, and all expected ASMs behind it are recognised. -/
structure Acquirable (cfg : Config K) (stream : Nat → K) (first ambiguity : Nat)
    (correlation : K) : Prop where
  ambiguity_lt : ambiguity < cfg.order
  found : checkForAsm cfg (converted cfg stream ambiguity) first = correlation
  above : cfg.correlationThreshold < correlation
  before : ∀ other < cfg.order, ∀ p < first,
    checkForAsm cfg (converted cfg stream other) p ≤ cfg.correlationThreshold
  greatest : ∀ other < cfg.order, ∀ p, first ≤ p → p ≤ first + cfg.searchLenMax →
    checkForAsm cfg (converted cfg stream other) p ≤ correlation ∧
      (other < ambiguity → checkForAsm cfg (converted cfg stream other) p < correlation)
  kept : ∀ n, cfg.correlationThreshold < checkForAsm cfg (converted cfg stream ambiguity)
    (first + cfg.asmLenBits + n * cfg.period + cfg.messageLen)

variable [IsStrictOrderedRing K] {cfg : Config K} {stream : Nat → K} {tags : List (Tag K)}
  {first ambiguity : Nat} {correlation : K}

namespace Machine

variable (hacquirable : Acquirable cfg stream first ambiguity correlation) (hasm : cfg.Bipolar)
  (hthreshold : -1 ≤ cfg.correlationThreshold) {m : Machine K} {numInput numConsumed : Nat}
  (htracks : Tracks cfg stream tags m) (hbounded : m.Bounded cfg) (hbase : m.base ≤ first)
  (hpoint : m.point = .loop numInput numConsumed)
  (havailable : cfg.searchLenMin ≤ numInput - numConsumed)

include hacquirable htracks hbase hpoint havailable

/-- A search that sees the first ASM selects it. -/
theorem selected_eq (hasm : cfg.Bipolar) (hthreshold : -1 ≤ cfg.correlationThreshold)
    (hseen : first - m.base ≤ cfg.searchLen numInput numConsumed - cfg.asmLenBits) :
    m.selected cfg stream numInput numConsumed = ⟨correlation, ambiguity, first - m.base⟩ := by
  have hfound : candidate cfg (m.window stream numConsumed) (cfg.searchLen numInput numConsumed)
      ambiguity (first - m.base) = correlation := by
    rw [candidate_window htracks hpoint havailable _ hseen, Nat.add_sub_cancel' hbase,
      hacquirable.found]
  have hbest : FirstBest cfg (m.window stream numConsumed) (cfg.searchLen numInput numConsumed)
      (m.selected cfg stream numInput numConsumed) :=
    searchStreams_firstBest hasm _ _ rfl ⟨ambiguity, hacquirable.ambiguity_lt, _, hseen,
      hfound ▸ hthreshold.trans_lt hacquirable.above⟩
  generalize m.selected cfg stream numInput numConsumed = best at hbest
  obtain ⟨found, other, offset⟩ := best
  obtain ⟨hother, hoffset, hcorrelation, hmaximum, hfirst⟩ := hbest
  dsimp only at hother hoffset hcorrelation hmaximum hfirst
  rw [candidate_window htracks hpoint havailable _ hoffset] at hcorrelation
  have hsearched : m.base + offset ≤ first + cfg.searchLenMax := by
    have hlen : cfg.searchLen numInput numConsumed ≤ cfg.searchLenMax :=
      (cfg.lower_le _).trans (Nat.min_le_right _ _)
    omega
  have hequal : found = correlation := by
    refine le_antisymm ?_ (hfound ▸ hmaximum _ hacquirable.ambiguity_lt _ hseen)
    rw [hcorrelation]
    rcases Nat.lt_or_ge (m.base + offset) first with hless | hmore
    · exact (hacquirable.before other hother _ hless).trans hacquirable.above.le
    · exact (hacquirable.greatest other hother _ hmore hsearched).1
  -- a selection behind the first ASM would have been beaten by it, one before it is too low
  have hnotBehind : ¬ (ambiguity < other ∨ ambiguity = other ∧ first - m.base < offset) := by
    intro hbehind
    have hless := hfirst _ hacquirable.ambiguity_lt _ hseen hbehind
    rw [hfound, hequal] at hless
    exact lt_irrefl _ hless
  have hreached : first ≤ m.base + offset := by
    by_contra hless
    have hlow := hacquirable.before other hother _ (Nat.lt_of_not_le hless)
    rw [← hcorrelation, hequal] at hlow
    exact hlow.not_gt hacquirable.above
  have hnotBefore : ¬ other < ambiguity := by
    intro hless
    have hlow := (hacquirable.greatest other hother _ hreached hsearched).2 hless
    rw [← hcorrelation, hequal] at hlow
    exact lt_irrefl _ hlow
  obtain rfl : other = ambiguity := by omega
  obtain rfl : offset = first - m.base := by omega
  rw [hequal]

omit [IsStrictOrderedRing K] in
/-- A search that does not see it selects nothing above the threshold. -/
theorem selected_le (hbounded : m.Bounded cfg) (hsearch : m.resolver.state = .search)
    (hthreshold : -1 ≤ cfg.correlationThreshold)
    (hunseen : cfg.searchLen numInput numConsumed - cfg.asmLenBits < first - m.base) :
    (m.selected cfg stream numInput numConsumed).correlation ≤ cfg.correlationThreshold := by
  have hfits : (m.selected cfg stream numInput numConsumed).offsetBits + cfg.asmLenBits ≤
      cfg.searchLen numInput numConsumed ∧
        (m.selected cfg stream numInput numConsumed).ambiguity < cfg.order :=
    selected_fits (hbounded.steady.search hsearch) havailable
  obtain ⟨hoffset, hother⟩ := hfits
  have hselected : searchStreams cfg (fun i => stream (m.base + i))
      (cfg.searchLen numInput numConsumed) (List.range cfg.order)
      ⟨-1, 0, m.resolver.offsetBits⟩ = m.selected cfg stream numInput numConsumed := by
    rw [selected, window_eq hpoint]
  rcases searchStreams_asmBefore htracks.aligned (searchLen_dvd cfg numInput numConsumed)
    (asmLenBits_le_searchLen havailable) rfl hselected with hnothing | ⟨-, hmatch⟩
  · rw [hnothing]
    exact hthreshold
  · rw [← hmatch, Nat.add_sub_cancel]
    exact hacquirable.before _ hother _ (by omega)

/-- The block is in front of the first ASM, or has locked on it and sent nothing but messages. -/
inductive Acquired (cfg : Config K) (first ambiguity : Nat) (correlation : K) (m : Machine K) : Prop
  | searching (log : m.log = []) (state : m.resolver.state = .search)
      (frameCount : m.resolver.frameCount = 0) (base_le : m.base ≤ first)
  | locked (messages : List (Message K))
      (log : m.log = .locked (first + cfg.asmLenBits) ambiguity 1 correlation ::
        messages.map .message)

omit hbase hpoint havailable in
theorem Acquired.searchStep (hasm : cfg.Bipolar) (hthreshold : -1 ≤ cfg.correlationThreshold)
    (hbounded : m.Bounded cfg) (hlog : m.log = []) (hsearch : m.resolver.state = .search)
    (hcount : m.resolver.frameCount = 0) (hbase : m.base ≤ first)
    (hpoint : m.point = .loop numInput numConsumed)
    (havailable : cfg.searchLenMin ≤ numInput - numConsumed) :
    Acquired cfg first ambiguity correlation (m.searchStep cfg stream numInput numConsumed) := by
  have hlen : cfg.asmLenBits ≤ cfg.searchLen numInput numConsumed :=
    asmLenBits_le_searchLen havailable
  by_cases hseen : first - m.base ≤ cfg.searchLen numInput numConsumed - cfg.asmLenBits
  · have hselected :=
      selected_eq hacquirable htracks hbase hpoint havailable hasm hthreshold hseen
    have hfound : cfg.correlationThreshold <
        (m.selected cfg stream numInput numConsumed).correlation :=
      hselected ▸ hacquirable.above
    refine .locked [] ?_
    rw [searchStep_found hfound, hselected, hlog, hcount, ← base_of_loop hpoint,
      Nat.add_sub_cancel' hbase]
    rfl
  · have hnone := selected_le hacquirable htracks hbase hpoint havailable hbounded hsearch
      hthreshold (Nat.lt_of_not_le hseen)
    have hstep : m.searchStep cfg stream numInput numConsumed =
        { m with
          point := .loop numInput (numConsumed +
            cfg.lower (cfg.searchLen numInput numConsumed - (cfg.asmLenBits - 1)))
          resolver := { m.resolver with offsetBits := 0 } } := by
      unfold Machine.searchStep
      exact if_neg hnone.not_gt
    have hlower := cfg.lower_le (cfg.searchLen numInput numConsumed - (cfg.asmLenBits - 1))
    have hpos := cfg.asmLenBits_pos
    rw [hstep]
    refine .searching hlog hsearch hcount ?_
    rw [base_of_loop rfl]
    rw [base_of_loop hpoint] at hbase hseen
    dsimp only
    omega

omit hbase hpoint havailable in
/-- A step while the block has recorded nothing. -/
theorem Acquired.step_searching (hasm : cfg.Bipolar) (hthreshold : -1 ≤ cfg.correlationThreshold)
    (hbounded : m.Bounded cfg) (hlog : m.log = []) (hsearch : m.resolver.state = .search)
    (hcount : m.resolver.frameCount = 0) (hbase : m.base ≤ first) {next : Machine K} {label : Label}
    (hstep : m.step cfg stream tags label = some next) :
    Acquired cfg first ambiguity correlation next := by
  unfold step at hstep
  split at hstep
  next numInput hpoint =>
    cases hstep
    refine .searching hlog hsearch hcount ?_
    rwa [base, hpoint] at hbase
  next numInput numConsumed hpoint =>
    rw [hsearch] at hstep
    dsimp only at hstep
    split at hstep
    next =>
      cases hstep
      refine .searching hlog hsearch hcount ?_
      rwa [base_of_loop hpoint] at hbase
    next havailable =>
      cases hstep
      exact Acquired.searchStep hacquirable htracks hasm hthreshold hbounded hlog hsearch hcount
        hbase hpoint (Nat.le_of_not_lt havailable)
  next => cases hstep

omit [IsStrictOrderedRing K] htracks hbase hpoint havailable in
/-- A step after the lock. The first ASM is never lost. -/
theorem Acquired.step_locked {messages : List (Message K)} {next : Machine K} {label : Label}
    (hlog : m.log = .locked (first + cfg.asmLenBits) ambiguity 1 correlation ::
      messages.map .message)
    (hnext : Tracks cfg stream tags next) (hstep : m.step cfg stream tags label = some next) :
    Acquired cfg first ambiguity correlation next := by
  rcases log_step hstep with hsame | ⟨event, happended⟩
  · exact .locked messages (hsame.trans hlog)
  · rw [hlog] at happended
    obtain ⟨message, rfl⟩ :=
      Valid.next_message (happended ▸ hnext.valid) (confidence_ne_none hacquirable.kept)
    exact .locked (messages ++ [message]) (by simp [happended])

omit htracks hbase hpoint havailable in
theorem acquired_of_reachable (hasm : cfg.Bipolar) (hthreshold : -1 ≤ cfg.correlationThreshold)
    (hreachable : Transition.Reachable (Machine.step cfg stream tags) (fun _ _ => True) start m) :
    Acquired cfg first ambiguity correlation m := by
  refine hreachable.invariant_along (.searching rfl rfl rfl (Nat.zero_le _)) ?_
  intro before label next hbefore hacquired _ hstep
  cases hacquired with
  | searching hlog hsearch hcount hbase =>
      exact .step_searching hacquirable (tracks_of_reachable hbefore) hasm hthreshold
        (bounded_of_reachable hbefore) hlog hsearch hcount hbase hstep
  | locked messages hlog =>
      exact .step_locked hacquirable hlog
        (tracks_of_reachable (hbefore.step trivial hstep)) hstep

omit htracks hbase hpoint havailable in
/-- The frames that have been sent so far. -/
theorem acquired_log (hasm : cfg.Bipolar) (hthreshold : -1 ≤ cfg.correlationThreshold)
    (hreachable : Transition.Reachable (Machine.step cfg stream tags) (fun _ _ => True) start m) :
    m.log = [] ∨ ∃ messages : List (Message K),
      m.log = .locked (first + cfg.asmLenBits) ambiguity 1 correlation :: messages.map .message ∧
      ∀ (k : Nat) (message : Message K), messages[k]? = some message →
        IsFrame cfg stream tags (first + cfg.asmLenBits + k * cfg.period) ambiguity (1 + k)
          correlation message := by
  cases acquired_of_reachable hacquirable hasm hthreshold hreachable with
  | searching hlog => exact .inl hlog
  | locked messages hlog =>
      exact .inr ⟨messages, hlog, fun _ _ hmessage =>
        isFrame_of_log (tracks_of_reachable hreachable) hlog hmessage⟩

omit htracks hbase hpoint havailable in
/-- The frames that have been sent at the end of a call. -/
theorem acquired_sent (hasm : cfg.Bipolar) (hthreshold : -1 ≤ cfg.correlationThreshold)
    (hreachable : Transition.Reachable (Machine.step cfg stream tags) (fun _ _ => True) start m)
    {next : Machine K} (hpoint : m.point = .loop numInput numConsumed)
    (hstep : m.step cfg stream tags .proceed = some next) (hidle : next.point = .idle) {k : Nat}
    (hshown : first + cfg.asmLenBits + k * cfg.period + cfg.messageLen ≤
      cfg.lower (m.nitemsRead + numInput)) :
    ∃ messages : List (Message K), next.log =
        .locked (first + cfg.asmLenBits) ambiguity 1 correlation :: messages.map .message ∧
      k < messages.length := by
  have htracks := tracks_of_reachable hreachable
  obtain ⟨hsame, hshort⟩ := of_step_idle hpoint hstep hidle
  have hinside := (bounded_of_reachable hreachable).inside numInput numConsumed hpoint
  cases acquired_of_reachable hacquirable hasm hthreshold hreachable with
  | searching hlog hsearch hcount hbase =>
      rw [hsearch] at hshort
      exact absurd hshown (not_shown_of_short hinside hpoint htracks.aligned hshort hbase
        (by omega))
  | locked messages hlog =>
      have hlock : m.resolver.state = .lock := by
        cases hstate : m.resolver.state with
        | lock => rfl
        | search =>
            have hnone := (htracks.search (by simp [hpoint]) hstate).1
            have hmessages := currentLock_messages [] messages (first + cfg.asmLenBits) ambiguity
              1 correlation
            rw [List.nil_append, ← hlog, hnone] at hmessages
            cases hmessages
      rw [hlock] at hshort
      exact ⟨messages, hsame.trans hlog,
        sent_of_short hreachable hpoint hlock hshort hlog hshown⟩

end Machine

/-- In every run, whatever its calls see of the stream, the block locks on the first ASM, never
loses the lock, and sends the frames behind it. When a call ends, all frames that it has shown
completely have been sent. -/
theorem first_asm_acquired (hacquirable : Acquirable cfg stream first ambiguity correlation)
    (hasm : cfg.Bipolar) (hthreshold : -1 ≤ cfg.correlationThreshold) {m : Machine K}
    (hreachable : Transition.Reachable (Machine.step cfg stream tags) (fun _ _ => True) .start m) :
    (m.log = [] ∨ ∃ messages : List (Message K),
      m.log = .locked (first + cfg.asmLenBits) ambiguity 1 correlation :: messages.map .message ∧
      ∀ (k : Nat) (message : Message K), messages[k]? = some message →
        IsFrame cfg stream tags (first + cfg.asmLenBits + k * cfg.period) ambiguity (1 + k)
          correlation message) ∧
    ∀ numInput numConsumed next, m.point = .loop numInput numConsumed →
      m.step cfg stream tags .proceed = some next → next.point = .idle →
      ∀ k, first + cfg.asmLenBits + k * cfg.period + cfg.messageLen ≤
          cfg.lower (m.nitemsRead + numInput) →
        ∃ messages : List (Message K), next.log =
            .locked (first + cfg.asmLenBits) ambiguity 1 correlation :: messages.map .message ∧
          k < messages.length :=
  ⟨Machine.acquired_log hacquirable hasm hthreshold hreachable,
    fun _ _ _ hpoint hstep hidle _ hshown =>
      Machine.acquired_sent hacquirable hasm hthreshold hreachable hpoint hstep hidle hshown⟩

section Example

open scoped ExactNumbers

/-- Silence, and then frames of eight bits, each behind the ASM of two bits. -/
def pulses (i : Nat) : ℚ := if i < 3 then 0 else if (i - 3) % 10 = 0 then 1 else -1

theorem pulses_add_three (i : Nat) : pulses (i + 3) = if i % 10 = 0 then 1 else -1 :=
  if_neg (Nat.not_lt.mpr (Nat.le_add_left 3 i))

theorem acquirable_pulses : Acquirable twoBitConfig pulses 3 0 1 where
  ambiguity_lt := by decide
  found := by decide +kernel
  above := by decide +kernel
  before := by decide +kernel
  greatest := fun other _ p _ _ =>
    ⟨checkForAsm_le_one (bipolar_of_bytes (fun _ => 0x80) rfl) _ _, nofun⟩
  kept := by
    intro n
    have hfound : checkForAsm twoBitConfig (converted twoBitConfig pulses 0) 3 = 1 := by
      decide +kernel
    have hperiodic : checkForAsm twoBitConfig (converted twoBitConfig pulses 0)
        (3 + twoBitConfig.asmLenBits + n * twoBitConfig.period + twoBitConfig.messageLen) =
          checkForAsm twoBitConfig (converted twoBitConfig pulses 0) 3 := by
      apply checkForAsm_congr
      intro i hi
      change pulses (i + (3 + 2 + n * 10 + 8)) = pulses (i + 3)
      have hposition : i + (3 + 2 + n * 10 + 8) = i + 10 * (n + 1) + 3 := by ring
      rw [hposition, pulses_add_three, pulses_add_three, Nat.add_mul_mod_self_left]
    rw [hperiodic, hfound]
    exact div_lt_one two_pos |>.mpr one_lt_two

/-- A call that shows a frame and the bit behind it. -/
theorem first_asm_acquired_pulses :
    ∃ (m next : Machine ℚ) (message : Message ℚ),
      Transition.run (Machine.step twoBitConfig pulses []) .start
        [.work 14, .proceed, .proceed] = some m ∧
      m.step twoBitConfig pulses [] .proceed = some next ∧
      next.log = [.locked 5 0 1 1, .message message] ∧
      message.bits = List.replicate 8 (-1) := by
  have hpoint : (Transition.run (Machine.step twoBitConfig pulses []) .start
      [.work 14, .proceed, .proceed]).map (fun m => (m.point, m.nitemsRead)) =
        some (.loop 14 13, 0) := by decide +kernel
  have hidle : ((Transition.run (Machine.step twoBitConfig pulses []) .start
      [.work 14, .proceed, .proceed]).bind fun m => m.step twoBitConfig pulses [] .proceed).map
        (fun next => (next.point, next.log.length)) = some (.idle, 2) := by decide +kernel
  obtain ⟨m, hrun, hm⟩ := Option.map_eq_some_iff.mp hpoint
  obtain ⟨hpointEq, hread⟩ := Prod.mk.inj hm
  rw [hrun, Option.bind_some] at hidle
  obtain ⟨next, hstep, hnext⟩ := Option.map_eq_some_iff.mp hidle
  obtain ⟨hnextPoint, hlength⟩ := Prod.mk.inj hnext
  have hreached := Transition.reachable_of_run hrun
  have hbipolar : twoBitConfig.Bipolar := bipolar_of_bytes (fun _ => 0x80) rfl
  obtain ⟨-, hsent⟩ := first_asm_acquired acquirable_pulses hbipolar (by decide +kernel) hreached
  obtain ⟨hacquired, -⟩ := first_asm_acquired acquirable_pulses hbipolar (by decide +kernel)
    (hreached.step trivial hstep)
  obtain ⟨_, hlogSent, -⟩ :=
    hsent 14 13 next hpointEq hstep hnextPoint 0 (by rw [hread]; decide +kernel)
  rw [hlogSent] at hacquired
  obtain ⟨messages, hlog, hframes⟩ := hacquired.resolve_left (List.cons_ne_nil _ _)
  rw [← hlogSent] at hlog
  rw [hlog, List.length_cons, List.length_map] at hlength
  obtain ⟨message, rfl⟩ := List.length_eq_one_iff.mp (Nat.succ.inj hlength)
  exact ⟨m, next, message, hrun, hstep, hlog,
    (hframes 0 message rfl).bits.trans (by decide +kernel)⟩

end Example

end GrCcsds.Ambiguity
