import GrCcsds.Ambiguity.Frames

/-! # The runs of the ambiguity resolver

In every run, whatever the calls of `general_work` see of the stream, every
event fits the lock that it belongs to.
-/

namespace GrCcsds.Ambiguity

open Utils Foundation

variable {R : Type} [Arithmetic R] {cfg : Config R} {stream : Nat → R} {tags : List (Tag R)}

/-- The number of bits that an unfinished call has consumed. -/
def Point.numConsumed : Point → Nat
  | .loop _ numConsumed => numConsumed
  | _ => 0

namespace Machine

omit [Arithmetic R] in
/-- The absolute position of the first bit that has not been consumed. -/
def base (m : Machine R) : Nat := m.nitemsRead + m.point.numConsumed

/-- Every event fits, and the members of the block belong to the lock. -/
structure Tracks (cfg : Config R) (stream : Nat → R) (tags : List (Tag R)) (m : Machine R) :
    Prop where
  valid : Valid cfg stream tags m.log
  untagged : m.resolver.tags.Untagged tags
  alignedRead : cfg.ldM ∣ m.nitemsRead
  alignedConsumed : cfg.ldM ∣ m.point.numConsumed
  search : m.point ≠ .raised → m.resolver.state = .search →
    currentLock m.log = none ∧ m.resolver.msgBufferCount = 0
  lock : m.point ≠ .raised → m.resolver.state = .lock → ∃ lock, currentLock m.log = some lock ∧
    (Filling cfg stream lock (m.base + m.resolver.offsetBits) m.resolver ∧
        m.resolver.msgBufferCount < cfg.messageLen ∨
      Checking cfg stream lock (m.base + m.resolver.offsetBits) m.resolver)

theorem Tracks.aligned {m : Machine R} (htracks : Tracks cfg stream tags m) :
    cfg.ldM ∣ m.base := Nat.dvd_add htracks.alignedRead htracks.alignedConsumed

omit [Arithmetic R] in
theorem base_of_loop {m : Machine R} {numInput numConsumed : Nat}
    (hpoint : m.point = .loop numInput numConsumed) : m.base = m.nitemsRead + numConsumed := by
  simp [base, hpoint, Point.numConsumed]

theorem Tracks.dvd_numConsumed {m : Machine R} {numInput numConsumed : Nat}
    (htracks : Tracks cfg stream tags m) (hpoint : m.point = .loop numInput numConsumed) :
    cfg.ldM ∣ numConsumed := by
  simpa [hpoint, Point.numConsumed] using htracks.alignedConsumed

theorem tracks_start : Tracks cfg stream tags (start : Machine R) where
  valid := .nil
  untagged := fun _ _ => rfl
  alignedRead := Nat.dvd_zero _
  alignedConsumed := Nat.dvd_zero _
  search := fun _ _ => ⟨rfl, rfl⟩
  lock := fun _ h => by cases h

theorem Tracks.finish {m : Machine R} {numInput numConsumed : Nat}
    (htracks : Tracks cfg stream tags m) (hpoint : m.point = .loop numInput numConsumed) :
    Tracks cfg stream tags (m.finish tags numConsumed) := by
  have hraised : m.point ≠ .raised := by simp [hpoint]
  have hbase : (m.finish tags numConsumed).base = m.base := by
    simp [base, Machine.finish, Point.numConsumed, hpoint]
  refine ⟨htracks.valid, ?_, ?_, Nat.dvd_zero _, fun _ => htracks.search hraised, ?_⟩
  · exact fun key hkey => TagStore.updateTags_untagged hkey _ _ (htracks.untagged key hkey)
  · exact Nat.dvd_add htracks.alignedRead (htracks.dvd_numConsumed hpoint)
  · intro _ hstate
    obtain ⟨lock, hlock, hcases⟩ := htracks.lock hraised hstate
    refine ⟨lock, hlock, ?_⟩
    rw [hbase]
    rcases hcases with ⟨hfilling, hcount⟩ | hchecking
    · exact Or.inl ⟨⟨⟨hfilling.state, hfilling.offset_lt, hfilling.ambiguity,
        hfilling.correlation⟩, hfilling.fill, hfilling.position, hfilling.frameCount,
        hfilling.count_le, hfilling.bits, hfilling.confidence⟩, hcount⟩
    · exact Or.inr ⟨⟨hchecking.state, hchecking.offset_lt, hchecking.ambiguity,
        hchecking.correlation⟩, hchecking.fill, hchecking.empty, hchecking.confidence⟩

theorem Tracks.searchStep {m : Machine R} {numInput numConsumed : Nat}
    (htracks : Tracks cfg stream tags m) (hpoint : m.point = .loop numInput numConsumed)
    (hstate : m.resolver.state = .search)
    (havailable : cfg.searchLenMin ≤ numInput - numConsumed) :
    Tracks cfg stream tags (m.searchStep cfg stream numInput numConsumed) := by
  obtain ⟨hnone, hempty⟩ := htracks.search (by simp [hpoint]) hstate
  have hconsumed := htracks.dvd_numConsumed hpoint
  have haligned := htracks.aligned
  rw [base_of_loop hpoint] at haligned
  unfold Machine.searchStep
  dsimp only
  split
  next hfound =>
    -- the new lock has no frames yet, so the position behind the ASM is the next one
    generalize hbest : searchStreams cfg _ _ _ _ = best at hfound
    have hfits := searchStreams_asmBefore haligned (getLowerMul_dvd _ _)
      (asmLenBits_le_searchLen havailable) rfl hbest
    have hsum := getLowerMul_add_mod cfg.ldM (best.offsetBits + cfg.asmLenBits)
    refine ⟨htracks.valid.append (by rw [hnone]; exact ⟨hfound, hfits⟩), htracks.untagged,
      htracks.alignedRead, Nat.dvd_add hconsumed (getLowerMul_dvd _ _),
      fun _ h => (by cases h), fun _ _ => ⟨_, currentLock_append _ _, Or.inl ⟨⟨⟨rfl,
        Nat.mod_lt _ cfg.ldM_pos, rfl, rfl⟩, rfl, ?_, rfl, ?_, ?_, rfl⟩, ?_⟩⟩⟩
    · simp only [base, Point.numConsumed, Lock.next, Config.lower, hempty]
      omega
    · simp [hempty]
    · simp [hempty]
    · simpa [hempty] using cfg.messageLen_pos
  next =>
    refine ⟨htracks.valid, htracks.untagged, htracks.alignedRead,
      Nat.dvd_add hconsumed (getLowerMul_dvd _ _), fun _ _ => ⟨hnone, hempty⟩, fun _ h => ?_⟩
    rw [hstate] at h
    cases h

/-- An iteration that fills the buffer. -/
theorem Tracks.fillStep {m : Machine R} {numInput numConsumed : Nat} {lock : Lock R}
    (htracks : Tracks cfg stream tags m) (hpoint : m.point = .loop numInput numConsumed)
    (hlock : currentLock m.log = some lock)
    (hfilling : Filling cfg stream lock (m.base + m.resolver.offsetBits) m.resolver)
    (hcount : m.resolver.msgBufferCount < cfg.messageLen)
    (havailable : m.resolver.checkLen cfg ≤ numInput - numConsumed) :
    Tracks cfg stream tags (m.lockStep cfg stream tags numInput numConsumed) := by
  have hconsumed := htracks.dvd_numConsumed hpoint
  have hbase := base_of_loop hpoint
  have hsymbol : cfg.ldM ≤ numInput - numConsumed := by
    apply Nat.le_trans _ havailable
    simpa [Resolver.checkLen, Config.upper, hfilling.fill] using
      Nat.le_of_dvd (le_getUpperMul cfg.ldM_pos 1) (getUpperMul_dvd _ _)
  rw [hbase] at hfilling
  -- a symbol is available, so the buffer moves on
  have hnext := hfilling.fillBuffer (hbase ▸ htracks.aligned) hsymbol hcount
  unfold Machine.lockStep
  rw [if_pos hfilling.fill]
  dsimp only
  have hdvd : cfg.ldM ∣ numConsumed + (fillBuffer cfg
      (fun i => stream (m.nitemsRead + numConsumed + i)) (numInput - numConsumed) m.resolver).2 :=
    Nat.dvd_add hconsumed (getLowerMul_dvd _ _)
  have htags : (fillBuffer cfg (fun i => stream (m.nitemsRead + numConsumed + i))
      (numInput - numConsumed) m.resolver).1.tags = m.resolver.tags := rfl
  generalize fillBuffer cfg (fun i => stream (m.nitemsRead + numConsumed + i))
    (numInput - numConsumed) m.resolver = filled at hnext hdvd htags
  obtain ⟨s, consumed⟩ := filled
  dsimp only at hnext hdvd htags ⊢
  have huntagged : s.tags.Untagged tags := htags ▸ htracks.untagged
  split
  next hfull =>
    cases hsend : sendMessage cfg tags m.nitemsRead
        (m.nitemsRead + (numConsumed + consumed) + s.offsetBits) s with
    | none =>
        exact ⟨htracks.valid, huntagged, htracks.alignedRead, Nat.dvd_zero _,
          fun h => absurd rfl h, fun h => absurd rfl h⟩
    | some sent =>
        obtain ⟨sender, message⟩ := sent
        rw [← Nat.add_assoc] at hsend
        obtain ⟨hframe, hchecking, hoffset, hrest⟩ :=
          hnext.sendMessage (Nat.le_antisymm hnext.count_le hfull) huntagged hsend
        have hfits : Fits cfg stream tags (currentLock m.log) (.message message) := by
          rw [hlock]
          exact ⟨hframe, by simp [hnext.confidence]⟩
        refine ⟨htracks.valid.append hfits, hrest, htracks.alignedRead, hdvd, fun _ h => ?_,
          fun _ _ => ⟨{ lock with frames := lock.frames + 1 }, ?_, Or.inr ?_⟩⟩
        · rw [hchecking.state] at h
          cases h
        · simp [hlock, Event.track]
        · simpa [base, Point.numConsumed, Nat.add_assoc, hoffset] using hchecking
  next hmore =>
    refine ⟨htracks.valid, huntagged, htracks.alignedRead, hdvd, fun _ h => ?_,
      fun _ _ => ⟨lock, hlock, Or.inl ⟨?_, Nat.lt_of_not_le hmore⟩⟩⟩
    · rw [hnext.state] at h
      cases h
    · simpa [base, Point.numConsumed, Nat.add_assoc] using hnext

/-- An iteration that checks an expected ASM. -/
theorem Tracks.checkStep {m : Machine R} {numInput numConsumed : Nat} {lock : Lock R}
    (htracks : Tracks cfg stream tags m) (hpoint : m.point = .loop numInput numConsumed)
    (hlock : currentLock m.log = some lock)
    (hchecking : Checking cfg stream lock (m.base + m.resolver.offsetBits) m.resolver) :
    Tracks cfg stream tags (m.lockStep cfg stream tags numInput numConsumed) := by
  have hconsumed := htracks.dvd_numConsumed hpoint
  have hbase := base_of_loop hpoint
  rw [hbase] at hchecking
  have hchecked := hchecking.checkStep (hbase ▸ htracks.aligned)
  unfold Machine.lockStep
  rw [if_neg (by simp [hchecking.fill])]
  generalize Ambiguity.checkStep cfg (fun i => stream (m.nitemsRead + numConsumed + i))
    m.resolver = result at hchecked
  obtain ⟨s, _ | consumed⟩ := result
  · obtain ⟨hlost, hstate, hempty, htags⟩ := hchecked
    have hfits : Fits cfg stream tags (currentLock m.log) .lost := by
      rw [hlock]
      exact hlost
    refine ⟨htracks.valid.append hfits, ?_, htracks.alignedRead, hconsumed,
      fun _ _ => ⟨currentLock_append _ _, hempty⟩, fun _ h => ?_⟩
    · exact htags ▸ htracks.untagged
    · rw [hstate] at h
      cases h
  · obtain ⟨hfilling, hempty, hdvd, htags⟩ := hchecked
    refine ⟨htracks.valid, htags ▸ htracks.untagged, htracks.alignedRead,
      Nat.dvd_add hconsumed hdvd, fun _ h => ?_, fun _ _ => ⟨lock, hlock, Or.inl ⟨?_, ?_⟩⟩⟩
    · rw [hfilling.state] at h
      cases h
    · simpa [base, Point.numConsumed, Nat.add_assoc] using hfilling
    · rw [hempty]
      exact cfg.messageLen_pos

theorem Tracks.lockStep {m : Machine R} {numInput numConsumed : Nat}
    (htracks : Tracks cfg stream tags m) (hpoint : m.point = .loop numInput numConsumed)
    (hstate : m.resolver.state = .lock)
    (havailable : m.resolver.checkLen cfg ≤ numInput - numConsumed) :
    Tracks cfg stream tags (m.lockStep cfg stream tags numInput numConsumed) := by
  obtain ⟨lock, hlock, ⟨hfilling, hcount⟩ | hchecking⟩ :=
    htracks.lock (by simp [hpoint]) hstate
  · exact htracks.fillStep hpoint hlock hfilling hcount havailable
  · exact htracks.checkStep hpoint hlock hchecking

theorem Tracks.step {m next : Machine R} {label : Label} (htracks : Tracks cfg stream tags m)
    (hstep : m.step cfg stream tags label = some next) : Tracks cfg stream tags next := by
  unfold Machine.step at hstep
  split at hstep
  next hpoint =>
    cases hstep
    have hraised : m.point ≠ .raised := by simp [hpoint]
    have hbase : ({ m with point := .loop ‹Nat› 0 } : Machine R).base = m.base := by
      simp [base, Point.numConsumed, hpoint]
    refine ⟨htracks.valid, htracks.untagged, htracks.alignedRead, Nat.dvd_zero _,
      fun _ => htracks.search hraised, fun _ h => ?_⟩
    rw [hbase]
    exact htracks.lock hraised h
  next hpoint =>
    split at hstep
    next hstate =>
      split at hstep
      next =>
        cases hstep
        exact htracks.finish hpoint
      next havailable =>
        cases hstep
        exact htracks.searchStep hpoint hstate (Nat.le_of_not_lt havailable)
    next hstate =>
      split at hstep
      next =>
        cases hstep
        exact htracks.finish hpoint
      next havailable =>
        cases hstep
        exact htracks.lockStep hpoint hstate (Nat.le_of_not_lt havailable)
  next => cases hstep

end Machine

end GrCcsds.Ambiguity
