import GrCcsds.Ambiguity.Exhaustive
import GrCcsds.Ambiguity.TagReads

/-! # The reception time of a frame

The time of a frame is computed from the last `rx_time` tag that the block has
seen. It is right if that is the tag with the highest offset up to the start of
the frame, and if a rate and a time have been seen before the frame is sent.
-/

namespace GrCcsds.Ambiguity

open Utils Foundation

variable {R : Type}

namespace TagStore

variable {tags : List (Tag R)} {nitemsRead : Nat} {store : TagStore R}

/-- What is in the buffer comes from tags of the stream, and the time from the last one. -/
def FromTags (tags : List (Tag R)) (store : TagStore R) : Prop :=
  ∀ key value, store.buffer key = some value → ∃ tag ∈ tags, tag.key = key ∧ tag.value = value ∧
    (key = "rx_time" → store.lastRxTime = tag.offset)

theorem fromTags_initial : (initial : TagStore R).FromTags tags := by
  intro key value h
  cases h

theorem FromTags.copy (hfrom : store.FromTags tags) {tag : Tag R} (htag : tag ∈ tags) :
    (store.copy tag).FromTags tags := by
  intro key value hvalue
  simp only [TagStore.copy] at hvalue ⊢
  split at hvalue
  next hkey =>
    cases hvalue
    exact ⟨tag, htag, hkey.symm, rfl, fun htime => if_pos (hkey.symm.trans htime)⟩
  next hkey =>
    obtain ⟨old, hold, holdKey, holdValue, holdTime⟩ := hfrom key value hvalue
    refine ⟨old, hold, holdKey, holdValue, ?_⟩
    intro htime
    rw [if_neg fun h => hkey (htime.trans h.symm)]
    exact holdTime htime

theorem FromTags.foldl {copied : List (Tag R)} (hcopied : ∀ tag ∈ copied, tag ∈ tags)
    (hfrom : store.FromTags tags) : (copied.foldl TagStore.copy store).FromTags tags := by
  induction copied generalizing store with
  | nil => exact hfrom
  | cons tag rest ih =>
      exact ih (fun t ht => hcopied t (List.mem_cons_of_mem _ ht))
        (hfrom.copy (hcopied tag List.mem_cons_self))

theorem FromTags.updateTags (hfrom : store.FromTags tags) (untilOffset : Nat) :
    (store.updateTags tags nitemsRead untilOffset).FromTags tags := by
  by_cases hlt : untilOffset < store.nextFrom nitemsRead
  · rw [updateTags_of_lt hlt]
    exact hfrom
  · rw [updateTags_of_le (Nat.le_of_not_lt hlt)]
    exact hfrom.foldl fun _ htag => mem_of_mem_copies htag

theorem FromTags.updateAll (hfrom : store.FromTags tags) (calls : List Nat) :
    (store.updateAll tags nitemsRead calls).FromTags tags := by
  induction calls generalizing store with
  | nil => exact hfrom
  | cons untilOffset rest ih => exact ih (hfrom.updateTags untilOffset)

/-- Other tags leave the time of the last `rx_time` tag alone. -/
theorem foldl_copy_lastRxTime_of_ne {copied : List (Tag R)}
    (hcopied : ∀ tag ∈ copied, tag.key ≠ "rx_time") (store : TagStore R) :
    (copied.foldl copy store).lastRxTime = store.lastRxTime := by
  induction copied generalizing store with
  | nil => rfl
  | cons tag rest ih =>
      rw [List.foldl_cons, ih fun t ht => hcopied t (List.mem_cons_of_mem _ ht)]
      exact if_neg (hcopied tag List.mem_cons_self)

/-- After a sorted batch the time is that of its last `rx_time` tag. -/
theorem foldl_copy_lastRxTime_of_mem {copied : List (Tag R)}
    (hsorted : copied.Pairwise fun x y => x.offset ≤ y.offset)
    (hmem : ∃ tag ∈ copied, tag.key = "rx_time") (store : TagStore R) :
    ∃ latest ∈ copied, latest.key = "rx_time" ∧
      (copied.foldl copy store).lastRxTime = latest.offset ∧
      ∀ tag ∈ copied, tag.key = "rx_time" → tag.offset ≤ latest.offset := by
  obtain ⟨before, latest, after, rfl, hkey, hafter, hhighest⟩ :=
    LatestValue.exists_last hsorted hmem
  refine ⟨latest, by simp, hkey, ?_, hhighest⟩
  rw [List.foldl_append, List.foldl_cons, foldl_copy_lastRxTime_of_ne hafter]
  exact if_pos hkey

/-- The offset is that of the last `rx_time` tag up to a position. -/
def IsLastTime (tags : List (Tag R)) (position offset : Nat) : Prop :=
  offset ≤ position ∧
    ∀ tag ∈ tags, tag.key = "rx_time" → tag.offset ≤ position → tag.offset ≤ offset

/-- Rate and time are known, and the last `rx_time` tag up to the start of a frame is either the
last one in the range in front of the start, or the last one that has been seen. -/
def TimeReady (tags : List (Tag R)) (nitemsRead start : Nat) (store : TagStore R) : Prop :=
  store.hasTime ∧
    if ∃ tag ∈ getTagsInRange tags (store.nextFrom nitemsRead) start, tag.key = "rx_time" then
      ∀ tag ∈ tags, tag.key = "rx_time" → tag.offset ≠ start
    else IsLastTime tags start store.lastRxTime

/-- Without an `rx_time` tag in the range the last one stays. -/
theorem updateTags_lastRxTime_of_none {untilOffset : Nat}
    (hnone : ¬ ∃ tag ∈ getTagsInRange tags (store.nextFrom nitemsRead) untilOffset,
      tag.key = "rx_time") :
    (store.updateTags tags nitemsRead untilOffset).lastRxTime = store.lastRxTime := by
  by_cases hlt : untilOffset < store.nextFrom nitemsRead
  · rw [updateTags_of_lt hlt]
  · rw [updateTags_of_le (Nat.le_of_not_lt hlt), copies, if_neg hlt]
    exact foldl_copy_lastRxTime_of_ne (fun tag htag hkey => hnone ⟨tag, htag, hkey⟩) store

/-- Otherwise it is the last one of the range. -/
theorem updateTags_lastRxTime_of_some (hsorted : tags.Pairwise fun x y => x.offset ≤ y.offset)
    {untilOffset : Nat}
    (hsome : ∃ tag ∈ getTagsInRange tags (store.nextFrom nitemsRead) untilOffset,
      tag.key = "rx_time") :
    ∃ latest ∈ getTagsInRange tags (store.nextFrom nitemsRead) untilOffset,
      (store.updateTags tags nitemsRead untilOffset).lastRxTime = latest.offset ∧
        ∀ tag ∈ getTagsInRange tags (store.nextFrom nitemsRead) untilOffset,
          tag.key = "rx_time" → tag.offset ≤ latest.offset := by
  obtain ⟨tag, htag, hkey⟩ := hsome
  have hrange := (mem_getTagsInRange.mp htag).2
  have hle : store.nextFrom nitemsRead ≤ untilOffset := hrange.1.trans hrange.2.le
  obtain ⟨latest, hlatest, -, htime, hhighest⟩ :=
    foldl_copy_lastRxTime_of_mem (hsorted.filter _) ⟨tag, htag, hkey⟩ store
  refine ⟨latest, hlatest, ?_, hhighest⟩
  rw [updateTags_of_le hle, copies, if_neg (Nat.not_lt_of_le hle)]
  exact htime

/-- A frame is ready exactly if the update at its start leaves the right tag. -/
theorem timeReady_iff (hsorted : tags.Pairwise fun x y => x.offset ≤ y.offset) {start : Nat} :
    store.TimeReady tags nitemsRead start ↔ store.hasTime ∧
      IsLastTime tags start (store.updateTags tags nitemsRead start).lastRxTime := by
  refine and_congr_right fun _ => ?_
  split
  next hsome =>
    obtain ⟨latest, hlatest, htime, hhighest⟩ := updateTags_lastRxTime_of_some hsorted hsome
    obtain ⟨-, hfrom, hbefore⟩ := mem_getTagsInRange.mp hlatest
    rw [htime]
    constructor
    · intro hnone
      refine ⟨hbefore.le, ?_⟩
      intro tag htag hkey hle
      have hlt : tag.offset < start := lt_of_le_of_ne hle (hnone tag htag hkey)
      by_cases hrange : store.nextFrom nitemsRead ≤ tag.offset
      · exact hhighest tag (mem_getTagsInRange.mpr ⟨htag, hrange, hlt⟩) hkey
      · omega
    · rintro ⟨-, hlast⟩ tag htag hkey rfl
      exact absurd (hlast tag htag hkey le_rfl) (Nat.not_le_of_lt hbefore)
  next hnone => rw [updateTags_lastRxTime_of_none hnone]

end TagStore

section Exact

variable {K : Type} [Field K] [LinearOrder K] [IsStrictOrderedRing K] [FloorRing K]

open scoped ExactNumbers

/-- Whole seconds and a fraction below one second. -/
def Pmt.IsTime (time : K) (value : Pmt K) : Prop :=
  ∃ (sec : Nat) (frac : K), value = .pair (.uint64 sec) (.real frac) ∧ 0 ≤ frac ∧ frac < 1 ∧
    (sec : K) + frac = time

/-- The time of a frame lies the samples since the tag behind the time of the tag. -/
theorem isTime_frameTime {samplesDiff rate timeSec : Nat} {timeFrac : K} (hrate : 0 < rate)
    (hfrac : 0 ≤ timeFrac) :
    (TagStore.frameTime samplesDiff (rate : K) timeSec timeFrac).IsTime
      (timeSec + timeFrac + (samplesDiff : K) / rate) := by
  have hrate' : (rate : K) ≠ 0 := Nat.cast_ne_zero.mpr hrate.ne'
  have hwhole : Arithmetic.toUInt64 (rate : K) = rate := Nat.floor_natCast rate
  let frac : K := timeFrac + ((samplesDiff % rate : Nat) : K) / rate
  have hnonneg : 0 ≤ frac := add_nonneg hfrac (div_nonneg (Nat.cast_nonneg _) (Nat.cast_nonneg _))
  have hcarry : Arithmetic.toUInt64 (Arithmetic.floor frac) = ⌊frac⌋₊ := by
    change ⌊((⌊frac⌋ : ℤ) : K)⌋₊ = ⌊frac⌋₊
    rw [← natCast_floor_eq_intCast_floor hnonneg, Nat.floor_natCast]
  have hrest : Arithmetic.fmodOne frac = Int.fract frac := if_pos hnonneg
  have hdivision : ((samplesDiff / rate : Nat) : K) + ((samplesDiff % rate : Nat) : K) / rate =
      (samplesDiff : K) / rate := by
    rw [eq_div_iff hrate', add_mul, div_mul_cancel₀ _ hrate', ← Nat.cast_mul, ← Nat.cast_add,
      Nat.div_add_mod' samplesDiff rate]
  refine ⟨timeSec + samplesDiff / rate + ⌊frac⌋₊, Int.fract frac, ?_, Int.fract_nonneg _,
    Int.fract_lt_one _, ?_⟩
  · unfold TagStore.frameTime
    simp only [hwhole]
    rw [hcarry, hrest]
  · rw [Nat.cast_add, Nat.cast_add, natCast_floor_eq_intCast_floor hnonneg, add_assoc,
      Int.floor_add_fract]
    simp only [frac]
    rw [← hdivision]
    ring

/-- Every rate is the same whole number and every time has a fraction that is not negative. -/
structure WellTimed (tags : List (Tag K)) (rate : Nat) : Prop where
  rate_pos : 0 < rate
  rate : ∀ tag ∈ tags, tag.key = "rx_rate" → tag.value.toDouble = some (rate : K)
  time : ∀ tag ∈ tags, tag.key = "rx_time" → ∃ (sec : Nat) (frac : K),
    tag.value.readTime = some (some (sec, frac)) ∧ 0 ≤ frac

/-- The value is the time of a position, counted from the last `rx_time` tag up to there. -/
def IsTimeOf (tags : List (Tag K)) (rate position : Nat) (value : Option (Pmt K)) : Prop :=
  ∃ tag ∈ tags, tag.key = "rx_time" ∧ TagStore.IsLastTime tags position tag.offset ∧
    ∃ (sec : Nat) (frac : K) (time : Pmt K), tag.value.readTime = some (some (sec, frac)) ∧
      value = some time ∧ time.IsTime (sec + frac + ((position : K) - tag.offset) / rate)

variable {tags : List (Tag K)} {rate : Nat}

theorem extractTags_time (hsorted : tags.Pairwise fun x y => x.offset ≤ y.offset)
    (hwell : WellTimed tags rate) {nitemsRead start len : Nat} (hstart : start < size64)
    {store next : TagStore K} (hfrom : store.FromTags tags)
    (hready : store.TimeReady tags nitemsRead start) {header : Header K}
    (hextract : store.extractTags tags nitemsRead start len = some (header, next)) :
    IsTimeOf tags rate start (header "rx_time") := by
  obtain ⟨hpresent, hlast⟩ := (TagStore.timeReady_iff hsorted).mp hready
  have hupdated : (store.updateTags tags nitemsRead start).FromTags tags :=
    hfrom.updateTags start
  unfold TagStore.hasTime at hpresent
  unfold TagStore.extractTags at hextract
  rw [if_pos hpresent] at hextract
  dsimp only at hextract
  split at hextract
  next rate' time hrate htime =>
    obtain ⟨rateValue, hrateValue, hrateRead⟩ := Option.bind_eq_some_iff.mp hrate
    obtain ⟨timeValue, htimeValue, htimeRead⟩ := Option.bind_eq_some_iff.mp htime
    obtain ⟨rateTag, hrateTag, hrateKey, rfl, -⟩ := hupdated _ _ hrateValue
    obtain ⟨tag, htag, hkey, rfl, hoffset⟩ := hupdated _ _ htimeValue
    have hoffset := hoffset rfl
    obtain ⟨sec, frac, hread, hfrac⟩ := hwell.time tag htag hkey
    have hrate' : rate' = (rate : K) :=
      Option.some.inj (hrateRead.symm.trans (hwell.rate rateTag hrateTag hrateKey))
    obtain rfl : time = some (sec, frac) := Option.some.inj (htimeRead.symm.trans hread)
    rw [hoffset] at hlast hextract
    have hdiff : minusWrap start tag.offset = start - tag.offset := by
      rw [minusWrap, Nat.sub_add_comm hlast.1, Nat.add_mod_right]
      exact Nat.mod_eq_of_lt (Nat.lt_of_le_of_lt (Nat.sub_le _ _) hstart)
    split at hextract
    next => cases hextract
    next =>
      cases hextract
      refine ⟨tag, htag, hkey, hlast, sec, frac, _, hread, if_pos rfl, ?_⟩
      rw [hdiff, hrate', ← Nat.cast_sub hlast.1]
      exact isTime_frameTime hwell.rate_pos hfrac
  next => cases hextract

/-- A tag with a key at or before a position. -/
def HasTagUntil (tags : List (Tag K)) (key : String) (position : Nat) : Prop :=
  ∃ tag ∈ tags, tag.key = key ∧ tag.offset ≤ position

/-- A step that finishes a frame finds its time ready, if there is one. -/
def Machine.Timely (cfg : Config K) (stream : Nat → K) (tags : List (Tag K)) (m : Machine K)
    (label : Label) : Prop :=
  ∀ start ∈ m.frameStart cfg stream label, HasTagUntil tags "rx_rate" start →
    HasTagUntil tags "rx_time" start → m.resolver.tags.TimeReady tags m.nitemsRead start

/-- A message has the time of its first bit as soon as the stream has a rate and a time. -/
def Message.TimeRight (tags : List (Tag K)) (rate : Nat) (message : Message K) : Prop :=
  ∀ position < size64, message.header "frame_offset" = some (.uint64 position) →
    HasTagUntil tags "rx_rate" position → HasTagUntil tags "rx_time" position →
    IsTimeOf tags rate position (message.header "rx_time")

/-- The times in the log are right and the tags of the block come from the stream. -/
structure Machine.TimesRight (tags : List (Tag K)) (rate : Nat) (m : Machine K) : Prop where
  fromTags : m.resolver.tags.FromTags tags
  messages : ∀ message, .message message ∈ m.log → message.TimeRight tags rate

theorem Machine.TimesRight.step {cfg : Config K} {stream : Nat → K} {m next : Machine K}
    {label : Label} (hright : m.TimesRight tags rate)
    (hsorted : tags.Pairwise fun x y => x.offset ≤ y.offset) (hwell : WellTimed tags rate)
    (htimely : m.Timely cfg stream tags label)
    (hstep : m.step cfg stream tags label = some next) : next.TimesRight tags rate := by
  cases Machine.tagMove_of_step hstep with
  | stay hframe hend htags hread hlog =>
      exact ⟨htags ▸ hright.fromTags, fun message hmessage => hright.messages message
        (hlog message hmessage)⟩
  | finish numRead hframe hend htags hread hlog =>
      exact ⟨htags ▸ hright.fromTags.updateTags _, hlog ▸ hright.messages⟩
  | frame start header bits hframe hextract hread hlog =>
      refine ⟨?_, ?_⟩
      · rw [TagStore.extractTags_store hextract]
        exact hright.fromTags.updateAll _
      · intro message hmessage
        rw [hlog, List.mem_append, List.mem_singleton] at hmessage
        rcases hmessage with hold | hnew
        · exact hright.messages message hold
        · obtain rfl := Event.message.inj hnew
          intro position hposition hoffset hrate htime
          -- the header carries the start of the frame
          obtain rfl : start = position := by simpa [Machine.messageHeader] using hoffset
          have htimes := extractTags_time hsorted hwell hposition hright.fromTags
            (htimely start hframe hrate htime) hextract
          simpa [Machine.messageHeader] using htimes
  | raise hpoint htags hlog => exact ⟨htags ▸ hright.fromTags, hlog ▸ hright.messages⟩

/-- In every run that finds the times ready, the time of a frame is that of its first bit. -/
theorem rx_time_right {cfg : Config K} {stream : Nat → K}
    (hsorted : tags.Pairwise fun x y => x.offset ≤ y.offset) (hwell : WellTimed tags rate)
    {m : Machine K} (hreachable : Transition.Reachable (Machine.step cfg stream tags)
      (Machine.Timely cfg stream tags) .start m) {message : Message K}
    (hmessage : .message message ∈ m.log) : message.TimeRight tags rate := by
  have hright : m.TimesRight tags rate := by
    apply hreachable.invariant
    · exact ⟨TagStore.fromTags_initial, fun _ h => absurd h List.not_mem_nil⟩
    · intro _ _ _ hbefore htimely hstep
      exact hbefore.step hsorted hwell htimely hstep
  exact hright.messages message hmessage

instance (tags : List (Tag K)) (key : String) (position : Nat) :
    Decidable (HasTagUntil tags key position) :=
  inferInstanceAs (Decidable (∃ tag ∈ tags, tag.key = key ∧ tag.offset ≤ position))

instance (tags : List (Tag K)) (nitemsRead start : Nat) (store : TagStore K) :
    Decidable (store.TimeReady tags nitemsRead start) := by
  unfold TagStore.TimeReady TagStore.IsLastTime
  infer_instance

instance (cfg : Config K) (stream : Nat → K) (tags : List (Tag K)) (m : Machine K)
    (label : Label) : Decidable (m.Timely cfg stream tags label) := by
  unfold Machine.Timely
  infer_instance

/-- A rate of one and a time of a hundred seconds, both at the second bit. -/
def timeTags : List (Tag ℚ) :=
  [{ offset := 1, key := "rx_rate", value := .real 1 },
    { offset := 1, key := "rx_time", value := .pair (.uint64 100) (.real 0) }]

theorem wellTimed_timeTags : WellTimed timeTags 1 where
  rate_pos := Nat.one_pos
  rate := by simp [timeTags, Pmt.toDouble]
  time := by
    simp only [timeTags, List.mem_cons, List.not_mem_nil, or_false]
    rintro tag (rfl | rfl) hkey
    · exact absurd hkey (by decide)
    · exact ⟨100, 0, rfl, le_refl _⟩

/-- An ASM of two bits in front of a frame of eight bits. -/
def frameStream (i : Nat) : ℚ := if i = 1 then -1 else 1

/-- The tags are read by a first call that sees the ASM and one bit of the frame. -/
def taggedRun : List Label :=
  [.work 3, .proceed, .proceed, .proceed, .work 12, .proceed]

/-- The start of the frame of a message, and whether the message has a time. -/
def Message.startAndTime (message : Message ℚ) : Option Nat × Bool :=
  (match message.header "frame_offset" with
    | some (.uint64 start) => some start
    | _ => none,
    (message.header "rx_time").isSome)

theorem Message.startAndTime_eq {message : Message ℚ} {start : Nat} {hasTime : Bool}
    (hmessage : message.startAndTime = (some start, hasTime)) :
    message.header "frame_offset" = some (.uint64 start) ∧
      (message.header "rx_time").isSome = hasTime := by
  unfold startAndTime at hmessage
  obtain ⟨hstart, htime⟩ := Prod.mk.inj hmessage
  split at hstart
  next heq => exact ⟨by rw [heq, Option.some.inj hstart], htime⟩
  next => cases hstart

/-- The messages of a run. -/
def Machine.sent (m : Machine ℚ) : List (Message ℚ) :=
  m.log.filterMap fun
    | .message message => some message
    | _ => none

theorem Machine.message_of_mem_sent {m : Machine ℚ} {message : Message ℚ}
    (hmessage : message ∈ m.sent) : .message message ∈ m.log := by
  obtain ⟨event, hevent, hsome⟩ := List.mem_filterMap.mp hmessage
  split at hsome
  · cases hsome
    exact hevent
  · cases hsome

theorem rx_time_right_tagged : ∃ (m : Machine ℚ) (message : Message ℚ),
    Transition.run (Machine.step twoBitConfig frameStream timeTags) .start taggedRun = some m ∧
      .message message ∈ m.log ∧ message.header "frame_offset" = some (.uint64 2) ∧
      IsTimeOf timeTags 1 2 (message.header "rx_time") := by
  let timely := fun (m : Machine ℚ) label =>
    decide (m.Timely twoBitConfig frameStream timeTags label)
  obtain ⟨m, hrun, hsent⟩ := Option.map_eq_some_iff.mp
    (show (Transition.run (Transition.guarded (Machine.step twoBitConfig frameStream timeTags)
        timely) .start taggedRun).map (fun m => m.sent.map Message.startAndTime) =
          some [(some 2, true)] by decide +kernel)
  have hreachable : Transition.Reachable (Machine.step twoBitConfig frameStream timeTags)
      (Machine.Timely twoBitConfig frameStream timeTags) .start m :=
    Transition.Reachable.of_guarded_run .refl (fun _ _ h => of_decide_eq_true h) hrun
  obtain ⟨message, hmessage, hstart⟩ :=
    List.mem_map.mp (hsent ▸ List.mem_cons_self : (some 2, true) ∈ m.sent.map Message.startAndTime)
  obtain ⟨hoffset, -⟩ := Message.startAndTime_eq hstart
  have hright := rx_time_right (by simp [timeTags]) wellTimed_timeTags hreachable
    (Machine.message_of_mem_sent hmessage)
  exact ⟨m, message, Transition.run_of_guarded hrun, Machine.message_of_mem_sent hmessage,
    hoffset, hright 2 (by decide) hoffset (by decide) (by decide)⟩

/-- The same in one call, which looks at the tags after it has sent the frame. -/
theorem rx_time_missing : ∃ (m : Machine ℚ) (message : Message ℚ),
    Transition.run (Machine.step twoBitConfig frameStream timeTags) .start
        [.work 12, .proceed, .proceed] = some m ∧
      .message message ∈ m.log ∧ message.header "frame_offset" = some (.uint64 2) ∧
      HasTagUntil timeTags "rx_rate" 2 ∧ HasTagUntil timeTags "rx_time" 2 ∧
      message.header "rx_time" = none := by
  obtain ⟨m, hrun, hsent⟩ := Option.map_eq_some_iff.mp
    (show (Transition.run (Machine.step twoBitConfig frameStream timeTags) .start
        [.work 12, .proceed, .proceed]).map (fun m => m.sent.map Message.startAndTime) =
          some [(some 2, false)] by decide +kernel)
  obtain ⟨message, hmessage, hstart⟩ := List.mem_map.mp
    (hsent ▸ List.mem_cons_self : (some 2, false) ∈ m.sent.map Message.startAndTime)
  obtain ⟨hoffset, htime⟩ := Message.startAndTime_eq hstart
  exact ⟨m, message, hrun, Machine.message_of_mem_sent hmessage, hoffset, by decide, by decide,
    Option.isSome_eq_false_iff.mp htime |> Option.isNone_iff_eq_none.mp⟩

end Exact

end GrCcsds.Ambiguity
