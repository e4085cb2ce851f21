import GrCcsds.Ambiguity.Search

/-! # The block in lock

The absolute position of the next bit is the number of consumed bits and the
carried bits of the current symbol. Filling the buffer, checking an ASM and the
ends of calls all move it along the frames of the lock.
-/

namespace GrCcsds.Ambiguity

open Utils Foundation

variable {R : Type} [Arithmetic R] {cfg : Config R} {stream : Nat → R} {tags : List (Tag R)}

/-- What the members of the block have to do with the lock. -/
structure Locked (cfg : Config R) (lock : Lock R) (s : Resolver R) : Prop where
  state : s.state = .lock
  offset_lt : s.offsetBits < cfg.ldM
  ambiguity : s.lockedOnStream = lock.ambiguity
  correlation : s.correlation = lock.correlation

/-- At an absolute position, the buffer holds the first bits of the next frame. -/
structure Filling (cfg : Config R) (stream : Nat → R) (lock : Lock R) (position : Nat)
    (s : Resolver R) : Prop extends Locked cfg lock s where
  fill : s.msgBufferFill = true
  position : position = lock.next cfg + s.msgBufferCount
  frameCount : s.frameCount = lock.frameCount + lock.frames
  count_le : s.msgBufferCount ≤ cfg.messageLen
  bits : ∀ i < s.msgBufferCount,
    s.msgBuffer i = converted cfg stream lock.ambiguity (lock.next cfg + i)
  confidence : confidence cfg stream lock.position lock.ambiguity lock.frames = some s.count

/-- At an absolute position, the last message has been sent and the next ASM begins. -/
structure Checking (cfg : Config R) (stream : Nat → R) (lock : Lock R) (position : Nat)
    (s : Resolver R) : Prop extends Locked cfg lock s where
  fill : s.msgBufferFill = false
  empty : s.msgBufferCount = 0
  confidence : ∃ n, lock.frames = n + 1 ∧ s.frameCount = lock.frameCount + n ∧
    position = lock.position + n * cfg.period + cfg.messageLen ∧
    confidence cfg stream lock.position lock.ambiguity n = some s.count

section Fill

variable {lock : Lock R} {base available : Nat} {s : Resolver R}

omit [Arithmetic R] in
theorem toBuffer_dvd : cfg.ldM ∣ s.toBuffer cfg available := by
  unfold Resolver.toBuffer pickSmaller
  split
  · exact getLowerMul_dvd _ _
  · exact getUpperMul_dvd _ _

omit [Arithmetic R] in
/-- As long as a symbol is available there is a bit to copy. -/
theorem toCopy_bounds (hoffset : s.offsetBits < cfg.ldM) (hsymbol : cfg.ldM ≤ available)
    (hcount : s.msgBufferCount < cfg.messageLen) :
    0 < s.toCopy cfg available ∧
      s.toCopy cfg available + s.offsetBits ≤ s.toBuffer cfg available ∧
      s.toCopy cfg available ≤ cfg.messageLen - s.msgBufferCount := by
  have hlower : cfg.ldM ≤ cfg.lower available := by
    have hsum := getLowerMul_add_mod cfg.ldM available
    have hmod := Nat.mod_lt available cfg.ldM_pos
    have hdvd := getLowerMul_dvd cfg.ldM available
    apply Nat.le_of_dvd _ hdvd
    omega
  have hupper := le_getUpperMul cfg.ldM_pos (cfg.messageLen - s.msgBufferCount + s.offsetBits)
  have hbuffer : s.toBuffer cfg available = min (cfg.lower available)
      (getUpperMul cfg.ldM (cfg.messageLen - s.msgBufferCount + s.offsetBits)) :=
    pickSmaller_eq_min _ _
  unfold Resolver.toCopy
  omega

theorem fillBuffer_position :
    base + (fillBuffer cfg (fun i => stream (base + i)) available s).2 +
        (fillBuffer cfg (fun i => stream (base + i)) available s).1.offsetBits =
      base + s.offsetBits + s.toCopy cfg available := by
  have hsum := getLowerMul_add_mod cfg.ldM (s.toCopy cfg available + s.offsetBits)
  change base + getLowerMul cfg.ldM (s.toCopy cfg available + s.offsetBits) +
    (s.toCopy cfg available + s.offsetBits) % cfg.ldM = _
  omega

/-- Filling the buffer moves on along the frame. -/
theorem Filling.fillBuffer (hfilling : Filling cfg stream lock (base + s.offsetBits) s)
    (haligned : cfg.ldM ∣ base) (hsymbol : cfg.ldM ≤ available)
    (hcount : s.msgBufferCount < cfg.messageLen) :
    Filling cfg stream lock
      (base + (Ambiguity.fillBuffer cfg (fun i => stream (base + i)) available s).2 +
        (Ambiguity.fillBuffer cfg (fun i => stream (base + i)) available s).1.offsetBits)
      (Ambiguity.fillBuffer cfg (fun i => stream (base + i)) available s).1 := by
  obtain ⟨hpos, hbuffer, hremaining⟩ := toCopy_bounds hfilling.offset_lt hsymbol hcount
  have hposition := hfilling.position
  refine ⟨⟨hfilling.state, Nat.mod_lt _ cfg.ldM_pos, hfilling.ambiguity, hfilling.correlation⟩,
    hfilling.fill, ?_, hfilling.frameCount, ?_, ?_, hfilling.confidence⟩
  · rw [fillBuffer_position, hposition, Nat.add_assoc]
    rfl
  · change s.msgBufferCount + s.toCopy cfg available ≤ cfg.messageLen
    omega
  · intro i hi
    change i < s.msgBufferCount + s.toCopy cfg available at hi
    change Memory.copy s.msgBufferCount (s.toCopy cfg available)
      (fun i => convertAmbiguity cfg.ldM (fun i => stream (base + i))
        (s.toBuffer cfg available) s.lockedOnStream (i + s.offsetBits))
      (if s.msgBufferCount = 0 then fun _ => 0 else s.msgBuffer) i = _
    -- bits of earlier calls stay, the others are copied behind them
    by_cases hold : i < s.msgBufferCount
    · rw [Memory.copy_outside _ _ (Or.inl hold), if_neg (by omega)]
      exact hfilling.bits i hold
    · obtain ⟨n, rfl⟩ := Nat.exists_eq_add_of_le (Nat.le_of_not_lt hold)
      have hn : n < s.toCopy cfg available := Nat.lt_of_add_lt_add_left hi
      rw [Memory.copy_inside _ _ _ hn,
        convertAmbiguity_input haligned toBuffer_dvd _ (by omega), hfilling.ambiguity]
      congr 1
      omega

/-- The message of a full buffer is the next frame of the lock. -/
theorem Filling.sendMessage {position nitemsRead : Nat} {next : Resolver R}
    {message : Message R} (hfilling : Filling cfg stream lock position s)
    (hfull : s.msgBufferCount = cfg.messageLen)
    (huntagged : s.tags.Untagged tags)
    (hsend : sendMessage cfg tags nitemsRead position s = some (next, message)) :
    IsFrame cfg stream tags (lock.next cfg) lock.ambiguity (lock.frameCount + lock.frames)
        lock.correlation message ∧
      Checking cfg stream { lock with frames := lock.frames + 1 } position next ∧
      next.offsetBits = s.offsetBits ∧ next.tags.Untagged tags := by
  have hposition := hfilling.position
  have hstart : position - cfg.messageLen = lock.next cfg := by omega
  unfold Ambiguity.sendMessage at hsend
  dsimp only at hsend
  rw [hstart] at hsend
  cases hextract : s.tags.extractTags tags nitemsRead (lock.next cfg) cfg.messageLen with
  | none =>
      rw [hextract] at hsend
      cases hsend
  | some result =>
      obtain ⟨header, store⟩ := result
      rw [hextract] at hsend
      cases hsend
      refine ⟨⟨?_, ?_, ?_, ?_, ?_⟩, ⟨⟨hfilling.state, hfilling.offset_lt, hfilling.ambiguity,
        hfilling.correlation⟩, rfl, rfl, lock.frames, rfl, hfilling.frameCount, ?_,
        hfilling.confidence⟩, rfl, ?_⟩
      · apply List.map_congr_left
        intro i hi
        apply hfilling.bits
        rw [hfull]
        exact List.mem_range.mp hi
      · simp
      · simp [hfilling.frameCount]
      · simp [hfilling.correlation]
      · intro key hkey
        have hheader := (TagStore.extractTags_untagged hkey (huntagged key hkey) hextract).1
        simp [Header.add, frameHeader, Header.empty, hheader, hfilling.frameCount,
          hfilling.correlation]
      · rw [hposition, hfull]
        rfl
      · exact fun key hkey =>
          (TagStore.extractTags_untagged hkey (huntagged key hkey) hextract).2

theorem checkStep_correlation (haligned : cfg.ldM ∣ base) (hfill : s.msgBufferFill = false) :
    checkForAsm cfg (convertAmbiguity cfg.ldM (fun i => stream (base + i)) (s.checkLen cfg)
        s.lockedOnStream) s.offsetBits =
      checkForAsm cfg (converted cfg stream s.lockedOnStream) (base + s.offsetBits) := by
  have hlen : s.checkLen cfg = getUpperMul cfg.ldM (cfg.asmLenBits + s.offsetBits) := by
    simp [Resolver.checkLen, Config.upper, hfill]
  have hle := le_getUpperMul cfg.ldM_pos (cfg.asmLenBits + s.offsetBits)
  rw [hlen]
  apply checkForAsm_congr
  intro i hi
  rw [convertAmbiguity_input haligned (getUpperMul_dvd _ _) _ (by omega)]
  congr 1
  omega

/-- A check of the ASM goes on to the next frame or loses the lock, as the stream says. -/
theorem Checking.checkStep (hchecking : Checking cfg stream lock (base + s.offsetBits) s)
    (haligned : cfg.ldM ∣ base) :
    match Ambiguity.checkStep cfg (fun i => stream (base + i)) s with
    | (next, some consumed) =>
      Filling cfg stream lock (base + consumed + next.offsetBits) next ∧
        next.msgBufferCount = 0 ∧ cfg.ldM ∣ consumed ∧ next.tags = s.tags
    | (next, none) =>
      Ambiguity.confidence cfg stream lock.position lock.ambiguity lock.frames = none ∧
        next.state = .search ∧ next.msgBufferCount = 0 ∧ next.tags = s.tags := by
  obtain ⟨n, hframes, hcount, hposition, hconfidence⟩ := hchecking.confidence
  have hcorrelation : checkForAsm cfg (convertAmbiguity cfg.ldM (fun i => stream (base + i))
      (s.checkLen cfg) s.lockedOnStream) s.offsetBits =
        checkForAsm cfg (converted cfg stream lock.ambiguity)
          (lock.position + n * cfg.period + cfg.messageLen) := by
    rw [checkStep_correlation haligned hchecking.fill, hchecking.ambiguity, hposition]
  have hnext : Ambiguity.confidence cfg stream lock.position lock.ambiguity lock.frames =
      if cfg.correlationThreshold < checkForAsm cfg (converted cfg stream lock.ambiguity)
          (lock.position + n * cfg.period + cfg.messageLen) then
        some (min (s.count + 1) cfg.threshold)
      else if s.count > 1 then some (s.count - 1)
      else none := by
    rw [hframes, Ambiguity.confidence, hconfidence]
    rfl
  -- the next frame begins right behind the ASM, possibly within a symbol
  have hbegin : base + cfg.lower (cfg.asmLenBits + s.offsetBits) +
      (cfg.asmLenBits + s.offsetBits) % cfg.ldM = lock.next cfg := by
    have hsum := getLowerMul_add_mod cfg.ldM (cfg.asmLenBits + s.offsetBits)
    unfold Lock.next Config.lower
    rw [hframes, Nat.succ_mul]
    unfold Config.period at hposition ⊢
    omega
  have hnumber : s.frameCount + 1 = lock.frameCount + lock.frames := by omega
  have hfilling : ∀ count, Ambiguity.confidence cfg stream lock.position lock.ambiguity
      lock.frames = some count → Filling cfg stream lock
        (base + cfg.lower (cfg.asmLenBits + s.offsetBits) +
          (cfg.asmLenBits + s.offsetBits) % cfg.ldM)
        { s with
          frameCount := s.frameCount + 1
          count := count
          offsetBits := (cfg.asmLenBits + s.offsetBits) % cfg.ldM
          msgBufferFill := true } := by
    intro count hcount
    refine ⟨⟨hchecking.state, Nat.mod_lt _ cfg.ldM_pos, hchecking.ambiguity,
      hchecking.correlation⟩, rfl, ?_, hnumber, ?_, ?_, hcount⟩
    · simp [hbegin, hchecking.empty]
    · simp [hchecking.empty]
    · simp [hchecking.empty]
  unfold Ambiguity.checkStep
  dsimp only
  rw [hcorrelation]
  by_cases hmatch : cfg.correlationThreshold < checkForAsm cfg
      (converted cfg stream lock.ambiguity) (lock.position + n * cfg.period + cfg.messageLen)
  · rw [if_pos hmatch] at hnext ⊢
    exact ⟨hfilling _ hnext, hchecking.empty, getLowerMul_dvd _ _, rfl⟩
  · rw [if_neg hmatch] at hnext ⊢
    by_cases hconfident : s.count > 1
    · rw [if_pos hconfident] at hnext ⊢
      exact ⟨hfilling _ hnext, hchecking.empty, getLowerMul_dvd _ _, rfl⟩
    · rw [if_neg hconfident] at hnext ⊢
      exact ⟨hnext, rfl, hchecking.empty, rfl⟩

end Fill

end GrCcsds.Ambiguity
