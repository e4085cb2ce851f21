import GrCcsds.Ambiguity.Resolver
import GrCcsds.Foundation.LatestValue

/-! # The ranges of tags that the resolver reads

A step of the block calls `updateTags` for the header of a frame and at the end
of `general_work`. A recorded run keeps the tags that these calls have copied.
A range starts behind the start of the range before, so that nothing is missed
as long as no range is empty.
-/

namespace GrCcsds.Ambiguity

open Utils Foundation

variable {R : Type}

namespace TagStore

/-- The first offset that the next call of `updateTags` looks at. -/
def nextFrom (nitemsRead : Nat) (store : TagStore R) : Nat := max nitemsRead (store.lastUpdate + 1)

variable (tags : List (Tag R)) (nitemsRead : Nat)

/-- The tags that a call of `updateTags` copies. -/
def copies (untilOffset : Nat) (store : TagStore R) : List (Tag R) :=
  if untilOffset < store.nextFrom nitemsRead then []
  else getTagsInRange tags (store.nextFrom nitemsRead) untilOffset

/-- The tags that successive calls copy. -/
def copiesAll : List Nat → TagStore R → List (Tag R)
  | [], _ => []
  | untilOffset :: rest, store =>
    store.copies tags nitemsRead untilOffset ++
      copiesAll rest (store.updateTags tags nitemsRead untilOffset)

/-- Successive calls of `updateTags`. -/
def updateAll (calls : List Nat) (store : TagStore R) : TagStore R :=
  calls.foldl (fun store untilOffset => store.updateTags tags nitemsRead untilOffset) store

variable {tags nitemsRead}

theorem mem_getTagsInRange {start stop : Nat} {tag : Tag R} :
    tag ∈ getTagsInRange tags start stop ↔
      tag ∈ tags ∧ start ≤ tag.offset ∧ tag.offset < stop := by
  simp [getTagsInRange]

theorem mem_of_mem_copies {untilOffset : Nat} {store : TagStore R} {tag : Tag R}
    (htag : tag ∈ store.copies tags nitemsRead untilOffset) : tag ∈ tags := by
  unfold copies at htag
  split at htag
  · exact absurd htag List.not_mem_nil
  · exact (mem_getTagsInRange.mp htag).1

/-- A call for the offsets up to one before its first does nothing. -/
theorem updateTags_of_lt {untilOffset : Nat} {store : TagStore R}
    (hlt : untilOffset < store.nextFrom nitemsRead) :
    store.updateTags tags nitemsRead untilOffset = store := if_pos hlt

theorem updateTags_of_le {untilOffset : Nat} {store : TagStore R}
    (hle : store.nextFrom nitemsRead ≤ untilOffset) :
    store.updateTags tags nitemsRead untilOffset =
      { (store.copies tags nitemsRead untilOffset).foldl copy store with
        lastUpdate := store.nextFrom nitemsRead } := by
  rw [copies, if_neg (Nat.not_lt_of_le hle)]
  exact if_neg (Nat.not_lt_of_le hle)

theorem foldl_copy_buffer (copied : List (Tag R)) (store : TagStore R) :
    (copied.foldl copy store).buffer =
      copied.foldl (LatestValue.put Tag.key Tag.value) store.buffer := by
  induction copied generalizing store with
  | nil => rfl
  | cons tag rest ih =>
      have hput : (store.copy tag).buffer = LatestValue.put Tag.key Tag.value store.buffer tag := by
        funext key
        simp [copy, LatestValue.put, Function.update_apply]
      rw [List.foldl_cons, List.foldl_cons, ih, hput]

theorem updateTags_buffer (untilOffset : Nat) (store : TagStore R) :
    (store.updateTags tags nitemsRead untilOffset).buffer =
      (store.copies tags nitemsRead untilOffset).foldl (LatestValue.put Tag.key Tag.value)
        store.buffer := by
  by_cases hlt : untilOffset < store.nextFrom nitemsRead
  · rw [updateTags_of_lt hlt, copies, if_pos hlt]
    rfl
  · rw [updateTags_of_le (Nat.le_of_not_lt hlt)]
    exact foldl_copy_buffer _ _

/-- Successive calls leave what their copies put into the buffer. -/
theorem updateAll_buffer (calls : List Nat) (store : TagStore R) :
    (store.updateAll tags nitemsRead calls).buffer =
      (store.copiesAll tags nitemsRead calls).foldl (LatestValue.put Tag.key Tag.value)
        store.buffer := by
  induction calls generalizing store with
  | nil => rfl
  | cons untilOffset rest ih =>
      rw [copiesAll, List.foldl_append, ← updateTags_buffer]
      exact ih _

/-- The first offset of the next range only grows. -/
theorem nextFrom_updateTags (untilOffset : Nat) (store : TagStore R) :
    (store.updateTags tags nitemsRead untilOffset).nextFrom nitemsRead =
      if untilOffset < store.nextFrom nitemsRead then store.nextFrom nitemsRead
      else store.nextFrom nitemsRead + 1 := by
  split
  next hlt => rw [updateTags_of_lt hlt]
  next hge =>
    rw [updateTags_of_le (Nat.le_of_not_lt hge)]
    exact max_eq_right (Nat.le_succ_of_le (le_max_left _ _))

/-- What has been copied is complete up to the next range and the buffer has the latest of it. -/
structure Current (tags : List (Tag R)) (nitemsRead : Nat) (copied : List (Tag R))
    (store : TagStore R) : Prop where
  known : ∀ tag ∈ copied, tag ∈ tags
  complete : ∀ tag ∈ tags, tag.offset < store.nextFrom nitemsRead → tag ∈ copied
  latest : LatestValue.IsLatest Tag.key Tag.value Tag.offset copied store.buffer

/-- A call of `updateTags` does not pass over a tag and does not go back to one from before
another with its key: if its range is empty, the tags at its offset have been copied already, and
no copied tag at or behind its end has the key of a tag in the range. -/
def Sound (tags : List (Tag R)) (nitemsRead untilOffset : Nat) (copied : List (Tag R))
    (store : TagStore R) : Prop :=
  store.nextFrom nitemsRead ≤ untilOffset →
    (untilOffset = store.nextFrom nitemsRead →
      ∀ tag ∈ tags, tag.offset = untilOffset → tag ∈ copied) ∧
    ∀ tag ∈ getTagsInRange tags (store.nextFrom nitemsRead) untilOffset, ∀ old ∈ copied,
      old.key = tag.key → old.offset < untilOffset

/-- All of some successive calls are sound. -/
def SoundAll (tags : List (Tag R)) (nitemsRead : Nat) :
    List Nat → List (Tag R) → TagStore R → Prop
  | [], _, _ => True
  | untilOffset :: rest, copied, store =>
    Sound tags nitemsRead untilOffset copied store ∧
      SoundAll tags nitemsRead rest (copied ++ store.copies tags nitemsRead untilOffset)
        (store.updateTags tags nitemsRead untilOffset)

section Steps

variable {copied : List (Tag R)} {store : TagStore R}

theorem copies_sorted (hsorted : tags.Pairwise fun x y => x.offset ≤ y.offset)
    (untilOffset : Nat) :
    (store.copies tags nitemsRead untilOffset).Pairwise fun x y => x.offset ≤ y.offset := by
  unfold copies
  split
  · exact List.Pairwise.nil
  · exact hsorted.filter _

theorem Current.updateTags (hcurrent : Current tags nitemsRead copied store)
    (hsorted : tags.Pairwise fun x y => x.offset ≤ y.offset) {untilOffset : Nat}
    (hsound : Sound tags nitemsRead untilOffset copied store) :
    Current tags nitemsRead (copied ++ store.copies tags nitemsRead untilOffset)
      (store.updateTags tags nitemsRead untilOffset) := by
  by_cases hlt : untilOffset < store.nextFrom nitemsRead
  · rw [updateTags_of_lt hlt, copies, if_pos hlt, List.append_nil]
    exact hcurrent
  · have hle := Nat.le_of_not_lt hlt
    obtain ⟨hempty, hback⟩ := hsound hle
    have hcopies : store.copies tags nitemsRead untilOffset =
        getTagsInRange tags (store.nextFrom nitemsRead) untilOffset := if_neg hlt
    refine ⟨?_, ?_, ?_⟩
    · intro tag htag
      rcases List.mem_append.mp htag with hold | hnew
      · exact hcurrent.known tag hold
      · exact mem_of_mem_copies hnew
    · intro tag htag hbefore
      rw [nextFrom_updateTags, if_neg hlt] at hbefore
      rw [hcopies, List.mem_append, mem_getTagsInRange]
      -- the offset that the next range leaves behind is read now or has been read
      rcases Nat.lt_succ_iff_lt_or_eq.mp hbefore with hbefore | hfirst
      · exact Or.inl (hcurrent.complete tag htag hbefore)
      · rcases Nat.eq_or_lt_of_le hle with heq | hnonempty
        · exact Or.inl (hempty heq.symm tag htag (hfirst.trans heq))
        · exact Or.inr ⟨htag, hfirst.ge, hfirst ▸ hnonempty⟩
    · rw [updateTags_buffer]
      apply hcurrent.latest.append (copies_sorted hsorted untilOffset)
      intro old hold tag htag hkey
      have hrange := hcopies ▸ htag
      have hend := hback tag hrange old hold hkey
      by_cases hreread : store.nextFrom nitemsRead ≤ old.offset
      · refine ⟨old, ?_, hkey, le_refl _⟩
        rw [hcopies, mem_getTagsInRange]
        exact ⟨hcurrent.known old hold, hreread, hend⟩
      · have hfrom := (mem_getTagsInRange.mp hrange).2.1
        exact ⟨tag, htag, rfl, by omega⟩

/-- At the end of a call the next range starts behind what has been consumed. -/
theorem Current.finish (hcurrent : Current tags nitemsRead copied store)
    (hsorted : tags.Pairwise fun x y => x.offset ≤ y.offset) {numRead : Nat}
    (hsound : Sound tags nitemsRead numRead copied store) :
    Current tags numRead (copied ++ store.copies tags nitemsRead numRead)
      (store.updateTags tags nitemsRead numRead) := by
  have hnext := hcurrent.updateTags hsorted hsound
  refine ⟨hnext.known, ?_, hnext.latest⟩
  intro tag htag hbefore
  by_cases hcovered : tag.offset <
      (store.updateTags tags nitemsRead numRead).nextFrom nitemsRead
  · exact hnext.complete tag htag hcovered
  · have hread : tag.offset < numRead := by
      unfold nextFrom at hbefore hcovered
      omega
    rw [nextFrom_updateTags] at hcovered
    split at hcovered
    next hlt => exact absurd (hread.trans hlt) hcovered
    next hge =>
      apply List.mem_append_right
      rw [copies, if_neg hge, mem_getTagsInRange]
      exact ⟨htag, by omega, hread⟩

theorem Current.updateAll (hcurrent : Current tags nitemsRead copied store)
    (hsorted : tags.Pairwise fun x y => x.offset ≤ y.offset) {calls : List Nat}
    (hsound : SoundAll tags nitemsRead calls copied store) :
    Current tags nitemsRead (copied ++ copiesAll tags nitemsRead calls store)
      (TagStore.updateAll tags nitemsRead calls store) := by
  induction calls generalizing copied store with
  | nil =>
      rw [copiesAll, List.append_nil]
      exact hcurrent
  | cons untilOffset rest ih =>
      obtain ⟨hfirst, hrest⟩ := hsound
      rw [copiesAll, ← List.append_assoc]
      exact ih (hcurrent.updateTags hsorted hfirst) hrest

end Steps

variable [Arithmetic R]

/-- Whether `extractTags` computes a time. -/
def hasTime (store : TagStore R) : Bool :=
  (store.buffer "rx_rate").isSome && (store.buffer "rx_time").isSome

/-- The calls of `updateTags` in `extractTags`. A time of a wrong format ends the function
before the second one. -/
def extractCalls (tags : List (Tag R)) (nitemsRead start len : Nat) (store : TagStore R) :
    List Nat :=
  if store.hasTime then
    match ((store.updateTags tags nitemsRead start).buffer "rx_time").bind Pmt.readTime with
    | some (some _) => [start, start + len]
    | _ => [start]
  else [start + len]

theorem extractTags_store {start len : Nat} {store next : TagStore R} {header : Header R}
    (hextract : extractTags tags nitemsRead start len store = some (header, next)) :
    next = updateAll tags nitemsRead (extractCalls tags nitemsRead start len store) store := by
  unfold extractTags at hextract
  unfold extractCalls hasTime
  split at hextract
  next hpresent =>
    rw [if_pos hpresent]
    dsimp only at hextract
    split at hextract
    next rate time _ htime =>
      rw [htime]
      split at hextract
      · cases hextract
      · split at hextract <;> cases hextract <;> rfl
    next => cases hextract
  next hmissing =>
    rw [if_neg hmissing]
    cases hextract
    rfl

end TagStore

/-- A check of an ASM leaves the tags alone. -/
theorem checkStep_tags [Arithmetic R] (cfg : Config R) (input : Nat → R) (s : Resolver R) :
    (checkStep cfg input s).1.tags = s.tags := by
  unfold checkStep
  dsimp only
  split
  · rfl
  · split <;> rfl

namespace Machine

variable [Arithmetic R] (cfg : Config R) (stream : Nat → R) (tags : List (Tag R))

/-- The start of the frame that a step finishes. -/
def frameStart (m : Machine R) : Label → Option Nat
  | .work _ => none
  | .proceed =>
    match m.point with
    | .loop numInput numConsumed =>
      let (s, consumed) := fillBuffer cfg (fun i => stream (m.nitemsRead + numConsumed + i))
        (numInput - numConsumed) m.resolver
      if m.resolver.state = .lock ∧ m.resolver.checkLen cfg ≤ numInput - numConsumed ∧
          m.resolver.msgBufferFill ∧ cfg.messageLen ≤ s.msgBufferCount then
        some (m.nitemsRead + (numConsumed + consumed) + s.offsetBits - cfg.messageLen)
      else none
    | _ => none

/-- The number of consumed bits if a step ends a call of `general_work`. -/
def callEnd (m : Machine R) : Label → Option Nat
  | .work _ => none
  | .proceed =>
    match m.point with
    | .loop numInput numConsumed =>
      let required := match m.resolver.state with
        | .search => cfg.searchLenMin
        | .lock => m.resolver.checkLen cfg
      if numInput - numConsumed < required then some (m.nitemsRead + numConsumed) else none
    | _ => none

/-- The calls of `updateTags` in a step. -/
def tagCalls (m : Machine R) (label : Label) : List Nat :=
  match m.frameStart cfg stream label with
  | some start => m.resolver.tags.extractCalls tags m.nitemsRead start cfg.messageLen
  | none => (m.callEnd cfg label).toList

/-- The header of a message. -/
def messageHeader (m : Machine R) (start : Nat) (header : Header R) : Header R :=
  header
    |>.add "frame_number" (.uint64 m.resolver.frameCount)
    |>.add "frame_offset" (.uint64 start)
    |>.add "frame_correlation" (.real m.resolver.correlation)

variable {cfg stream tags}

theorem step_of_raised {m : Machine R} (hraised : m.point = .raised) (label : Label) :
    m.step cfg stream tags label = none := by
  unfold step
  rw [hraised]

/-- What a step does to the tags and the messages. -/
inductive TagMove (cfg : Config R) (stream : Nat → R) (tags : List (Tag R)) (m : Machine R)
    (label : Label) (next : Machine R) : Prop where
  | stay (hframe : m.frameStart cfg stream label = none) (hend : m.callEnd cfg label = none)
      (htags : next.resolver.tags = m.resolver.tags) (hread : next.nitemsRead = m.nitemsRead)
      (hlog : ∀ message, .message message ∈ next.log → .message message ∈ m.log)
  | finish (numRead : Nat) (hframe : m.frameStart cfg stream label = none)
      (hend : m.callEnd cfg label = some numRead)
      (htags : next.resolver.tags = m.resolver.tags.updateTags tags m.nitemsRead numRead)
      (hread : next.nitemsRead = numRead) (hlog : next.log = m.log)
  | frame (start : Nat) (header : Header R) (bits : List R)
      (hframe : m.frameStart cfg stream label = some start)
      (hextract : m.resolver.tags.extractTags tags m.nitemsRead start cfg.messageLen =
        some (header, next.resolver.tags))
      (hread : next.nitemsRead = m.nitemsRead)
      (hlog : next.log = m.log ++ [.message ⟨m.messageHeader start header, bits⟩])
  | raise (hpoint : next.point = .raised) (htags : next.resolver.tags = m.resolver.tags)
      (hlog : next.log = m.log)

theorem tagMove_finish {m : Machine R} {numConsumed : Nat}
    (hframe : m.frameStart cfg stream .proceed = none)
    (hend : m.callEnd cfg .proceed = some (m.nitemsRead + numConsumed)) :
    TagMove cfg stream tags m .proceed (m.finish tags numConsumed) :=
  .finish _ hframe hend rfl rfl rfl

theorem tagMove_searchStep {m : Machine R} {numInput numConsumed : Nat}
    (hframe : m.frameStart cfg stream .proceed = none) (hend : m.callEnd cfg .proceed = none) :
    TagMove cfg stream tags m .proceed (m.searchStep cfg stream numInput numConsumed) := by
  unfold searchStep
  dsimp only
  split
  · refine .stay hframe hend rfl rfl ?_
    intro message hmessage
    simpa using hmessage
  · exact .stay hframe hend rfl rfl fun _ h => h

theorem tagMove_checkStep {m : Machine R} {numInput numConsumed : Nat}
    (hframe : m.frameStart cfg stream .proceed = none) (hend : m.callEnd cfg .proceed = none)
    (hfill : m.resolver.msgBufferFill = false) :
    TagMove cfg stream tags m .proceed (m.lockStep cfg stream tags numInput numConsumed) := by
  unfold lockStep
  rw [if_neg (by simp [hfill])]
  have htags := checkStep_tags cfg (fun i => stream (m.nitemsRead + numConsumed + i)) m.resolver
  generalize checkStep cfg (fun i => stream (m.nitemsRead + numConsumed + i)) m.resolver =
    result at htags
  obtain ⟨s, _ | consumed⟩ := result
  · refine .stay hframe hend htags rfl ?_
    intro message hmessage
    simpa using hmessage
  · exact .stay hframe hend htags rfl fun _ h => h

theorem tagMove_fillStep {m : Machine R} {numInput numConsumed : Nat}
    (hpoint : m.point = .loop numInput numConsumed) (hstate : m.resolver.state = .lock)
    (havailable : m.resolver.checkLen cfg ≤ numInput - numConsumed)
    (hend : m.callEnd cfg .proceed = none) (hfill : m.resolver.msgBufferFill = true) :
    TagMove cfg stream tags m .proceed (m.lockStep cfg stream tags numInput numConsumed) := by
  have hframe : m.frameStart cfg stream .proceed =
      if cfg.messageLen ≤ (fillBuffer cfg (fun i => stream (m.nitemsRead + numConsumed + i))
          (numInput - numConsumed) m.resolver).1.msgBufferCount then
        some (m.nitemsRead + (numConsumed + (fillBuffer cfg
            (fun i => stream (m.nitemsRead + numConsumed + i))
            (numInput - numConsumed) m.resolver).2) +
          (fillBuffer cfg (fun i => stream (m.nitemsRead + numConsumed + i))
            (numInput - numConsumed) m.resolver).1.offsetBits - cfg.messageLen)
      else none := by
    simp [frameStart, hpoint, hstate, havailable, hfill]
  unfold lockStep
  rw [if_pos hfill]
  dsimp only
  split
  next hfull =>
    rw [if_pos hfull] at hframe
    unfold sendMessage
    dsimp only
    cases hextract : TagStore.extractTags tags m.nitemsRead _ cfg.messageLen
        (fillBuffer cfg (fun i => stream (m.nitemsRead + numConsumed + i))
          (numInput - numConsumed) m.resolver).1.tags with
    | none => exact .raise rfl rfl rfl
    | some result => exact .frame _ result.1 _ hframe hextract rfl rfl
  next hmore =>
    rw [if_neg hmore] at hframe
    exact .stay hframe hend rfl rfl fun _ h => h

theorem tagMove_of_step {m next : Machine R} {label : Label}
    (hstep : m.step cfg stream tags label = some next) :
    TagMove cfg stream tags m label next := by
  unfold step at hstep
  split at hstep
  next hpoint =>
    cases hstep
    exact .stay rfl rfl rfl rfl fun _ h => h
  next numInput numConsumed hpoint =>
    split at hstep
    next hstate =>
      have hframe : m.frameStart cfg stream .proceed = none := by
        simp [frameStart, hpoint, hstate]
      split at hstep
      next hfew =>
        cases hstep
        exact tagMove_finish hframe (by simp [callEnd, hpoint, hstate, hfew])
      next hmore =>
        cases hstep
        exact tagMove_searchStep hframe (by simp [callEnd, hpoint, hstate, hmore])
    next hstate =>
      split at hstep
      next hfew =>
        cases hstep
        have hframe : m.frameStart cfg stream .proceed = none := by
          simp [frameStart, hpoint, hstate, Nat.not_le_of_lt hfew]
        exact tagMove_finish hframe (by simp [callEnd, hpoint, hstate, hfew])
      next hmore =>
        cases hstep
        have hend : m.callEnd cfg .proceed = none := by
          simp [callEnd, hpoint, hstate, hmore]
        cases hfill : m.resolver.msgBufferFill with
        | true => exact tagMove_fillStep hpoint hstate (Nat.le_of_not_lt hmore) hend hfill
        | false =>
            have hframe : m.frameStart cfg stream .proceed = none := by
              simp [frameStart, hpoint, hfill]
            exact tagMove_checkStep hframe hend hfill
  next => cases hstep

end Machine

end GrCcsds.Ambiguity
