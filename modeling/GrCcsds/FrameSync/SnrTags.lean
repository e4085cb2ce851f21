import GrCcsds.FrameSync.Layout
import GrCcsds.FrameSync.Snr
import Mathlib.Algebra.Order.Ring.Rat
import Mathlib.Data.List.Rotate

/-! # The SNR tags of the buffer

A tag stands at the start of each previous block, at the start of the current
block and at the latest symbol. `advance` moves the tags by one block. A tag is
invalid as long as its block has not started.
-/

namespace GrCcsds.FrameSync

open Utils Foundation

namespace Layout

variable {env : Platform} (layout : Layout env.Sample) (b : Buffer env)

def offsetEnd : Nat := minusCapZero (b.offsetCounter + layout.blockLen + layout.overlapLen) 1

/-- `localOffset` with its assertions. -/
def localOffsetBelow (absOffset maxLen : Nat) : Option Nat := do
  guard (layout.offsetStart b ≤ absOffset)
  guard (absOffset ≤ layout.offsetEnd b)
  guard (layout.localOffset b absOffset < maxLen)
  some (layout.localOffset b absOffset)

def absoluteOffset (localIndex : Nat) : Option Nat := do
  guard (localIndex < layout.bufferLen)
  guard (layout.historyLen ≤ b.offsetCounter + localIndex)
  some (b.offsetCounter + localIndex - layout.historyLen)

/-- The index of the first of the two tags that `snr` selects. -/
def tagIndxStart (localBlock : Nat) : Nat :=
  if localBlock + 1 < b.snrTags.length then localBlock else b.snrTags.length - 2

/-- The arguments that `snr` passes to the constructor of an interpolation. -/
def snrArguments (absPos : Nat) : Option (SnrInterpolation env.Snr) := do
  guard (layout.offsetStart b ≤ absPos)
  guard (absPos ≤ layout.offsetLastSymbol b)
  let localPos ← layout.localOffsetBelow b absPos layout.bufferLen
  guard (layout.numHead ≤ localPos)
  let localBlock := (localPos - layout.numHead) / layout.blockLen
  let tagIndxStart := tagIndxStart b localBlock
  let tagIndxEnd := tagIndxStart + 1
  guard (tagIndxEnd < b.snrTags.length)
  let offsetStart ← layout.absoluteOffset b (layout.numHead + tagIndxStart * layout.blockLen)
  some
    { first := b.snrTags.getD tagIndxStart env.invalidSnr
      last := b.snrTags.getD tagIndxEnd env.invalidSnr
      offsetStart := offsetStart
      blockLength := layout.blockLen }

end Layout

/-- The SNRs of a platform as energies. -/
structure SnrValues (env : Platform) (K : Type) where
  value : env.Snr → Snr K
  root : K → K
  value_invalid : value env.invalidSnr = Snr.INVALID

namespace SnrValues

variable {env : Platform} {K : Type} [Field K] [LinearOrder K] (values : SnrValues env K)

/-- The interpolation that the constructor makes of its arguments. -/
def interpolation (arguments : SnrInterpolation env.Snr) : Option (Interpolation K) :=
  Interpolation.make values.root (values.value arguments.first) (values.value arguments.last)
    arguments.offsetStart arguments.blockLength

/-- A valid SNR of energies that are not negative. -/
def HasEnergies (snr : env.Snr) : Prop := (values.value snr).HasEnergies values.root

/-- Two SNRs that are measured or invalid make an interpolation, unless both are invalid. -/
theorem exists_interpolation [IsStrictOrderedRing K] {p : K → Prop}
    {arguments : SnrInterpolation env.Snr}
    (hfirst : arguments.first = env.invalidSnr ∨
      (values.value arguments.first).Measured values.root p)
    (hlast : arguments.last = env.invalidSnr ∨
      (values.value arguments.last).Measured values.root p)
    (hany : (values.value arguments.first).Measured values.root p ∨
      (values.value arguments.last).Measured values.root p) :
    ∃ start stop made, p start ∧ p stop ∧ values.interpolation arguments = some made ∧
      made.Between arguments.blockLength start stop := by
  have hvalid (s : Snr K) (hmeasured : s.Measured values.root p) : s.valid = true :=
    hmeasured.valid
  have hinvalid {snr : env.Snr} (heq : snr = env.invalidSnr) :
      values.value snr = Snr.INVALID := heq ▸ values.value_invalid
  obtain ⟨picked, hpickStart, es, start, hes, hstart, rfl⟩ :=
    Snr.exists_pickFirstIfValid hvalid (hfirst.imp_left hinvalid) hany
  obtain ⟨picked, hpickStop, esStop, stop, hesStop, hstop, rfl⟩ :=
    Snr.exists_pickFirstIfValid hvalid (hlast.imp_left hinvalid) hany.symm
  rw [Snr.ofEnergies_finite hes] at hpickStart
  rw [Snr.ofEnergies_finite hesStop] at hpickStop
  exact ⟨start, stop, _, hstart, hstop, Interpolation.make_finite hpickStart hpickStop _ _, rfl,
    rfl, rfl, _, _, rfl, rfl⟩

theorem interpolation_isSome [IsStrictOrderedRing K] {arguments : SnrInterpolation env.Snr}
    (hfirst : arguments.first = env.invalidSnr ∨ values.HasEnergies arguments.first)
    (hlast : arguments.last = env.invalidSnr ∨ values.HasEnergies arguments.last)
    (hany : values.HasEnergies arguments.first ∨ values.HasEnergies arguments.last) :
    (values.interpolation arguments).isSome := by
  obtain ⟨-, -, made, -, -, hmade, -⟩ :=
    values.exists_interpolation (p := (0 ≤ ·)) hfirst hlast hany
  exact Option.isSome_of_eq_some hmade

end SnrValues

/-- `snr` with its assertions and those of the constructor of the interpolation. -/
def Layout.snr {env : Platform} {K : Type} [Field K] [LinearOrder K] (values : SnrValues env K)
    (layout : Layout env.Sample) (b : Buffer env) (absPos : Nat) : Option (Interpolation K) := do
  values.interpolation (← layout.snrArguments b absPos)

namespace Session

variable {env : Platform} {layout : Layout env.Sample} {fits : env.Snr → Prop}

/-- The reads of a call come with an SNR that fits. -/
def ReadsWith (fits : env.Snr → Prop) : Layout.Call env → Prop
  | .readSignal _ snrEnd => fits snrEnd
  | .advance => True

theorem getD_set_last {tags : List env.Snr} (hne : 0 < tags.length) (snr : env.Snr) (k : Nat) :
    (tags.set (minusCapZero tags.length 1) snr).getD k env.invalidSnr =
      if k = tags.length - 1 then snr else tags.getD k env.invalidSnr := by
  rw [minusCapZero_eq_sub, List.getD_eq_getElem?_getD, List.getElem?_set]
  split
  next heq => rw [if_pos (by omega), if_pos heq.symm, Option.getD_some]
  next hne => rw [if_neg (Ne.symm hne), List.getD_eq_getElem?_getD]

theorem getD_rotate_one {tags : List env.Snr} {k : Nat} (hk : k + 1 < tags.length) :
    (tags.rotate 1).getD k env.invalidSnr = tags.getD (k + 1) env.invalidSnr := by
  rw [List.getD_eq_getElem?_getD, List.getElem?_rotate (by omega), Nat.mod_eq_of_lt hk,
    List.getD_eq_getElem?_getD]

theorem getElem?_eq_some_getD {tags : List env.Snr} {k : Nat} (hk : k < tags.length) :
    tags[k]? = some (tags.getD k env.invalidSnr) := by
  rw [List.getD_eq_getElem _ _ hk, List.getElem?_eq_getElem hk]

/-- After `numAdvanced` blocks the tags of the started blocks fit, and so does the latest
tag after a read. -/
structure Tagged (layout : Layout env.Sample) (fits : env.Snr → Prop) (numAdvanced : Nat)
    (s : Session env) : Prop where
  length : s.buffer.snrTags.length = layout.numHistoryFrames + 2
  offset : s.buffer.offsetCounter = numAdvanced * layout.blockLen
  each : ∀ k, s.buffer.snrTags.getD k env.invalidSnr = env.invalidSnr ∨
    fits (s.buffer.snrTags.getD k env.invalidSnr)
  started : ∀ k ≤ layout.numHistoryFrames, layout.numHistoryFrames < k + numAdvanced →
    fits (s.buffer.snrTags.getD k env.invalidSnr)
  latest : layout.historyLen + (if numAdvanced = 0 then 0 else layout.overlapLen) <
      s.buffer.numItems →
    fits (s.buffer.snrTags.getD (layout.numHistoryFrames + 1) env.invalidSnr)

theorem tagged_start (layout : Layout env.Sample) : Tagged layout fits 0 (start layout) where
  length := by
    change (List.replicate _ _).length = _
    rw [List.length_replicate]
    omega
  offset := (Nat.zero_mul _).symm
  each := by
    intro k
    left
    change (List.replicate _ env.invalidSnr).getD k env.invalidSnr = _
    simp [List.getD_eq_getElem?_getD, List.getElem?_replicate]
    split <;> rfl
  started := fun k hk hlt => absurd hk (Nat.not_le_of_lt hlt)
  latest := fun hlt => absurd hlt (Nat.lt_irrefl _)

/-- A read replaces the latest tag. -/
theorem readSignal_snrTags (b : Buffer env) (input : List env.Sample) (snrEnd : env.Snr) :
    (layout.readSignal b input snrEnd).1.snrTags =
      b.snrTags.set (minusCapZero b.snrTags.length 1) snrEnd := rfl

theorem Tagged.readSignal {numAdvanced : Nat} {s : Session env}
    (htagged : Tagged layout fits numAdvanced s) (input : List env.Sample) {snrEnd : env.Snr}
    (hfits : fits snrEnd) (accepted : List env.Sample) :
    Tagged layout fits numAdvanced ⟨(layout.readSignal s.buffer input snrEnd).1, accepted⟩ := by
  have hlength := htagged.length
  have htag (k : Nat) :
      (s.buffer.snrTags.set (minusCapZero s.buffer.snrTags.length 1) snrEnd).getD k
          env.invalidSnr =
        if k = layout.numHistoryFrames + 1 then snrEnd
        else s.buffer.snrTags.getD k env.invalidSnr := by
    rw [getD_set_last (by omega), hlength]
    rfl
  refine ⟨?_, htagged.offset, ?_, ?_, ?_⟩
  · rw [readSignal_snrTags, List.length_set]
    exact hlength
  · intro k
    rw [readSignal_snrTags, htag]
    split
    next => exact Or.inr hfits
    next => exact htagged.each k
  · intro k hk hstarted
    rw [readSignal_snrTags, htag, if_neg (by omega)]
    exact htagged.started k hk hstarted
  · intro
    rw [readSignal_snrTags, htag, if_pos rfl]
    exact hfits

/-- `advance` rotates the tags by one and leaves the latest one invalid. -/
theorem advance_snrTags {b next : Buffer env} (hadvance : layout.advance b = some next) :
    next.snrTags =
      (b.snrTags.rotate 1).set (minusCapZero (b.snrTags.rotate 1).length 1) env.invalidSnr := by
  unfold Layout.advance at hadvance
  split at hadvance
  next => cases hadvance; rfl
  next => cases hadvance

theorem Tagged.advance {numAdvanced : Nat} {s : Session env}
    (htagged : Tagged layout fits numAdvanced s) (hblock : 0 < layout.blockLen)
    {next : Buffer env} (hadvance : layout.advance s.buffer = some next) :
    Tagged layout fits (numAdvanced + 1) { s with buffer := next } := by
  obtain ⟨hfull, hitems, hoffset, -, -⟩ := Layout.advance_cases hadvance
  have htags := advance_snrTags hadvance
  have hlength := htagged.length
  have hbufferLen := layout.bufferLen_eq
  have hlast : next.snrTags.getD (layout.numHistoryFrames + 1) env.invalidSnr =
      env.invalidSnr := by
    rw [htags, getD_set_last (by rw [List.length_rotate]; omega), List.length_rotate, hlength]
    exact if_pos rfl
  have hmoved (k : Nat) (hk : k ≤ layout.numHistoryFrames) :
      next.snrTags.getD k env.invalidSnr = s.buffer.snrTags.getD (k + 1) env.invalidSnr := by
    rw [htags, getD_set_last (by rw [List.length_rotate]; omega), List.length_rotate, hlength,
      if_neg (by omega), getD_rotate_one (by omega)]
  have hnext : next.snrTags.length = layout.numHistoryFrames + 2 := by
    rw [htags, List.length_set, List.length_rotate, hlength]
  refine ⟨hnext, ?_, ?_, ?_, ?_⟩
  · change next.offsetCounter = _
    rw [hoffset, htagged.offset, Nat.succ_mul]
  · intro k
    change next.snrTags.getD k _ = _ ∨ fits (next.snrTags.getD k _)
    by_cases hk : k ≤ layout.numHistoryFrames
    · rw [hmoved k hk]
      exact htagged.each (k + 1)
    · left
      by_cases heq : k = layout.numHistoryFrames + 1
      · rw [heq, hlast]
      · rw [List.getD_eq_default _ _ (by omega)]
  · intro k hk hstarted
    change fits (next.snrTags.getD k _)
    rw [hmoved k hk]
    rcases Nat.lt_or_eq_of_le hk with hlt | heq
    · exact htagged.started (k + 1) hlt (by omega)
    · -- the buffer was full, so a symbol has been read since the block started
      subst heq
      refine htagged.latest ?_
      split <;> omega
  · intro hread
    change _ < next.numItems at hread
    rw [if_neg (Nat.succ_ne_zero numAdvanced)] at hread
    omega

theorem Tagged.step {numAdvanced : Nat} {s next : Session env} {call : Layout.Call env}
    (htagged : Tagged layout fits numAdvanced s) (hblock : 0 < layout.blockLen)
    (hfits : ReadsWith fits call) (hstep : step layout s call = some next) :
    ∃ numAdvanced, Tagged layout fits numAdvanced next := by
  cases call with
  | readSignal input snrEnd =>
      cases hstep
      exact ⟨numAdvanced, htagged.readSignal input hfits _⟩
  | advance =>
      obtain ⟨buffer, hadvance, rfl⟩ := Option.map_eq_some_iff.mp hstep
      exact ⟨numAdvanced + 1, htagged.advance hblock hadvance⟩

/-- The sessions whose reads come with an SNR that fits. -/
abbrev ReachedWith (layout : Layout env.Sample) (fits : env.Snr → Prop) : Session env → Prop :=
  Transition.Reachable (step layout) (fun _ call => ReadsWith fits call) (start layout)

theorem ReachedWith.tagged {s : Session env} (hreached : ReachedWith layout fits s)
    (hblock : 0 < layout.blockLen) : ∃ numAdvanced, Tagged layout fits numAdvanced s := by
  apply hreached.invariant ⟨0, tagged_start layout⟩
  intro s call next hbefore hfits hstep
  obtain ⟨numAdvanced, htagged⟩ := hbefore
  exact htagged.step hblock hfits hstep

theorem Tagged.numAdvanced_le {numAdvanced : Nat} {s : Session env}
    (htagged : Tagged layout fits numAdvanced s) (hblock : 0 < layout.blockLen) {p : Nat}
    (hstart : s.buffer.offset - layout.numHistoryFrames * layout.blockLen ≤ p) :
    numAdvanced ≤ p / layout.blockLen + layout.numHistoryFrames := by
  have hoffset : s.buffer.offset = numAdvanced * layout.blockLen := htagged.offset
  rw [← Nat.add_mul_div_right _ _ hblock, Nat.le_div_iff_mul_le hblock, ← hoffset]
  exact Nat.sub_le_iff_le_add.mp hstart

/-- A position of the held blocks and of the symbols after them passes the assertions. -/
theorem Holds.localOffsetBelow {s : Session env} (hholds : Holds layout s)
    (hblock : 0 < layout.blockLen) {p : Nat}
    (hstart : s.buffer.offset - layout.numHistoryFrames * layout.blockLen ≤ p)
    (hlast : p ≤ layout.offsetLastSymbol s.buffer) :
    layout.offsetStart s.buffer ≤ p ∧
      layout.localOffsetBelow s.buffer p layout.bufferLen = some
        (p + layout.numHistoryFrames * layout.blockLen - s.buffer.offset + layout.numHead) := by
  have hle := hholds.le_bufferLen
  have hbufferLen := layout.bufferLen_eq
  have hhistory : layout.historyLen =
    layout.numHistoryFrames * layout.blockLen + layout.numHead := rfl
  have hcounter : s.buffer.offsetCounter = s.buffer.offset := rfl
  rw [Layout.offsetLastSymbol, minusCapZero_eq_sub] at hlast
  have hheld : layout.offsetStart s.buffer ≤ p := by
    rw [Layout.offsetStart, minusCapZero_eq_sub]
    omega
  have hend : p ≤ layout.offsetEnd s.buffer := by
    rw [Layout.offsetEnd, minusCapZero_eq_sub]
    omega
  have hlocal : layout.localOffset s.buffer p =
      p + layout.numHistoryFrames * layout.blockLen - s.buffer.offset + layout.numHead := by
    rw [Layout.localOffset, minusCapZero_eq_sub]
    omega
  refine ⟨hheld, ?_⟩
  rw [Layout.localOffsetBelow, guard, if_pos hheld, guard, if_pos hend, hlocal, guard,
    if_pos (by omega)]
  rfl

/-- A tag stands at the start of its block. -/
theorem Tagged.absoluteOffset {numAdvanced : Nat} {s : Session env}
    (htagged : Tagged layout fits numAdvanced s) (hblock : 0 < layout.blockLen) {block k : Nat}
    (hk : k + numAdvanced = block + layout.numHistoryFrames)
    (hle : k ≤ layout.numHistoryFrames) :
    layout.absoluteOffset s.buffer (layout.numHead + k * layout.blockLen) =
      some (block * layout.blockLen) := by
  have hoffset := htagged.offset
  have hbufferLen := layout.bufferLen_eq
  have hhistory : layout.historyLen =
    layout.numHistoryFrames * layout.blockLen + layout.numHead := rfl
  have hsum : k * layout.blockLen + numAdvanced * layout.blockLen =
      block * layout.blockLen + layout.numHistoryFrames * layout.blockLen := by
    rw [← Nat.add_mul, hk, Nat.add_mul]
  have hbefore := Nat.mul_le_mul_right layout.blockLen hle
  rw [Layout.absoluteOffset, guard, if_pos (by omega), guard, if_pos (by omega)]
  refine congrArg some ?_
  omega

/-- A position of the held blocks belongs to the tag at the start of its block, or to that of
the current block if it lies behind. -/
theorem Tagged.snrArguments {numAdvanced : Nat} {s : Session env}
    (htagged : Tagged layout fits numAdvanced s) (hholds : Holds layout s)
    (hblock : 0 < layout.blockLen) {p : Nat}
    (hstart : s.buffer.offset - layout.numHistoryFrames * layout.blockLen ≤ p)
    (hlast : p ≤ layout.offsetLastSymbol s.buffer) {block : Nat}
    (hmin : block = min (p / layout.blockLen) numAdvanced) {k : Nat}
    (hk : k + numAdvanced = block + layout.numHistoryFrames) :
    layout.snrArguments s.buffer p =
      some
        { first := s.buffer.snrTags.getD k env.invalidSnr
          last := s.buffer.snrTags.getD (k + 1) env.invalidSnr
          offsetStart := block * layout.blockLen
          blockLength := layout.blockLen } := by
  have hlength := htagged.length
  have hoffset : s.buffer.offset = numAdvanced * layout.blockLen := htagged.offset
  obtain ⟨hheld, hbelow⟩ := hholds.localOffsetBelow hblock hstart hlast
  have hlocalBlock : (p + layout.numHistoryFrames * layout.blockLen - s.buffer.offset) /
      layout.blockLen = p / layout.blockLen + layout.numHistoryFrames - numAdvanced := by
    rw [hoffset, Nat.mul_comm numAdvanced, Nat.sub_mul_div, Nat.add_mul_div_right _ _ hblock]
  have hadvanced := htagged.numAdvanced_le hblock hstart
  have htag : Layout.tagIndxStart s.buffer
      (p / layout.blockLen + layout.numHistoryFrames - numAdvanced) = k := by
    rw [Layout.tagIndxStart, hlength]
    split <;> omega
  have habsolute := htagged.absoluteOffset hblock hk (by omega)
  have hpair : k + 1 < s.buffer.snrTags.length := by omega
  simp only [Layout.snrArguments, hbelow, Nat.add_sub_cancel, hlocalBlock, htag, habsolute, guard,
    if_pos hheld, if_pos hlast, if_pos (Nat.le_add_left _ _), if_pos hpair, Option.bind_eq_bind,
    Option.bind_some, Option.pure_def]

/-- One of the two tags around a position fits once a symbol has been read. -/
theorem Tagged.fits_or_fits {numAdvanced : Nat} {s : Session env}
    (htagged : Tagged layout fits numAdvanced s) (hholds : Holds layout s)
    (haccepted : s.accepted ≠ []) {p block k : Nat}
    (hmin : block = min (p / layout.blockLen) numAdvanced)
    (hk : k + numAdvanced = block + layout.numHistoryFrames) :
    fits (s.buffer.snrTags.getD k env.invalidSnr) ∨
      fits (s.buffer.snrTags.getD (k + 1) env.invalidSnr) := by
  rcases Nat.eq_zero_or_pos block with hzero | hpos
  · -- the first tag stands at the start of the stream and has never been set
    right
    rcases Nat.eq_zero_or_pos numAdvanced with rfl | hadvanced
    · obtain rfl : k = layout.numHistoryFrames := by omega
      have hread := List.length_pos_iff.mpr haccepted
      have hitems := hholds.accepted
      rw [htagged.offset, Nat.zero_mul] at hitems
      refine htagged.latest ?_
      rw [if_pos rfl]
      omega
    · exact htagged.started (k + 1) (by omega) (by omega)
  · exact Or.inl (htagged.started k (by omega) (by omega))

/-- A read of at least one symbol. -/
def IsNonemptyRead : Layout.Call env → Prop
  | .readSignal input _ => input ≠ []
  | .advance => False

/-- A buffer that has accepted nothing has room for a symbol. -/
theorem accepted_ne_nil_of_step {s next : Session env} {call : Layout.Call env}
    (hholds : Holds layout s) (hblock : 0 < layout.blockLen)
    (hread : s.accepted ≠ [] ∨ IsNonemptyRead call) (hstep : step layout s call = some next) :
    next.accepted ≠ [] := by
  cases call with
  | readSignal input snrEnd =>
      have hnext : next.accepted =
          s.accepted ++ input.take (layout.readSignal s.buffer input snrEnd).2 := by
        cases hstep
        rfl
      intro hnil
      obtain ⟨hbefore, htaken⟩ := List.append_eq_nil_iff.mp (hnext ▸ hnil)
      have hinput := List.length_pos_iff.mpr (hread.resolve_left fun hne => hne hbefore)
      have hcount := congrArg List.length htaken
      have hitems := hholds.accepted
      have hbufferLen := layout.bufferLen_eq
      rw [layout.readSignal_snd, List.length_take, List.length_nil, Layout.numSymbolsMissing]
        at hcount
      rw [hbefore, List.length_nil] at hitems
      omega
  | advance =>
      obtain ⟨buffer, -, rfl⟩ := Option.map_eq_some_iff.mp hstep
      exact hread.resolve_right not_false

theorem accepted_ne_nil_of_run (hblock : 0 < layout.blockLen) {calls : List (Layout.Call env)}
    {s last : Session env} (hholds : Holds layout s)
    (hread : s.accepted ≠ [] ∨ ∃ call ∈ calls, IsNonemptyRead call)
    (hrun : Transition.run (step layout) s calls = some last) : last.accepted ≠ [] := by
  induction calls generalizing s with
  | nil =>
      cases hrun
      exact hread.resolve_right fun ⟨_, hmem, _⟩ => List.not_mem_nil hmem
  | cons call rest ih =>
      obtain ⟨next, hstep, hrest⟩ := Option.bind_eq_some_iff.mp hrun
      refine ih (hholds.step hstep) ?_ hrest
      rcases hread with haccepted | ⟨other, hmem, hother⟩
      · left
        exact accepted_ne_nil_of_step hholds hblock (Or.inl haccepted) hstep
      · rcases List.mem_cons.mp hmem with rfl | hlater
        · left
          exact accepted_ne_nil_of_step hholds hblock (Or.inr hother) hstep
        · exact Or.inr ⟨other, hlater, hother⟩

/-- `snr` finds a valid tag for every position from the first block held to the last
symbol. -/
theorem snr_covers {K : Type} [Field K] [LinearOrder K] [IsStrictOrderedRing K]
    (values : SnrValues env K) (hblock : 0 < layout.blockLen) {calls : List (Layout.Call env)}
    {s : Session env} (hreads : ∀ call ∈ calls, ReadsWith values.HasEnergies call)
    (hread : ∃ call ∈ calls, IsNonemptyRead call)
    (hrun : Transition.run (step layout) (start layout) calls = some s) {p : Nat}
    (hstart : s.buffer.offset - layout.numHistoryFrames * layout.blockLen ≤ p)
    (hlast : p ≤ layout.offsetLastSymbol s.buffer) :
    ∃ k arguments, layout.snrArguments s.buffer p = some arguments ∧
      (layout.snr values s.buffer p).isSome ∧
      s.buffer.snrTags[k]? = some arguments.first ∧
      s.buffer.snrTags[k + 1]? = some arguments.last ∧
      ((values.value arguments.first).valid ∨ (values.value arguments.last).valid) ∧
      arguments.offsetStart ≤ p ∧
      (p < s.buffer.offset + layout.blockLen → p < arguments.offsetStart + layout.blockLen) := by
  have hreached : ReachedWith layout values.HasEnergies s :=
    Transition.Reachable.of_run .refl (fun _ => hreads) hrun
  have hholds : Holds layout s := Reached.holds (hreached.mono fun _ _ _ => trivial)
  have haccepted : s.accepted ≠ [] :=
    accepted_ne_nil_of_run hblock (holds_start layout) (Or.inr hread) hrun
  obtain ⟨numAdvanced, htagged⟩ := hreached.tagged hblock
  have hadvanced := htagged.numAdvanced_le hblock hstart
  have hlength := htagged.length
  have hoffset : s.buffer.offset = numAdvanced * layout.blockLen := htagged.offset
  obtain ⟨block, hmin⟩ : ∃ block, block = min (p / layout.blockLen) numAdvanced := ⟨_, rfl⟩
  obtain ⟨k, hk⟩ : ∃ k, k + numAdvanced = block + layout.numHistoryFrames :=
    ⟨block + layout.numHistoryFrames - numAdvanced, by omega⟩
  have harguments := htagged.snrArguments hholds hblock hstart hlast hmin hk
  have hfits : values.HasEnergies (s.buffer.snrTags.getD k env.invalidSnr) ∨
      values.HasEnergies (s.buffer.snrTags.getD (k + 1) env.invalidSnr) :=
    htagged.fits_or_fits hholds haccepted hmin hk
  refine ⟨k, _, harguments, ?_, ?_, ?_, ?_, ?_, ?_⟩
  · rw [Layout.snr, harguments]
    exact values.interpolation_isSome (htagged.each k) (htagged.each (k + 1)) hfits
  · exact getElem?_eq_some_getD (by omega)
  · exact getElem?_eq_some_getD (by omega)
  · exact hfits.imp Snr.HasEnergies.valid Snr.HasEnergies.valid
  · calc block * layout.blockLen
      _ ≤ p / layout.blockLen * layout.blockLen := Nat.mul_le_mul_right _ (by omega)
      _ ≤ p := Nat.div_mul_le_self _ _
  · intro hcurrent
    have hbefore : p / layout.blockLen < numAdvanced + 1 := by
      rw [Nat.div_lt_iff_lt_mul hblock, Nat.succ_mul, ← hoffset]
      exact hcurrent
    have hdiv : block = p / layout.blockLen := by omega
    rw [hdiv]
    exact Nat.lt_div_mul_add hblock

end Session

/-- The SNRs of the exact platform are pairs of numbers already. -/
def exactValues : SnrValues exactPlatform ℚ where
  value := fun snr => snr
  root := fun x => x
  value_invalid := rfl

/-- An SNR of two energies of one. -/
def unitSnr : Snr ℚ := ⟨.finite 1, .finite 1⟩

theorem hasEnergies_unitSnr : exactValues.HasEnergies unitSnr :=
  ⟨1, 1, zero_le_one, zero_le_one, (Snr.ofEnergies_finite zero_le_one (fun x => x) _).symm⟩

/-- Blocks of three symbols and one previous block. -/
def taggedLayout : Layout exactPlatform.Sample where
  blockLen := 3
  asmLen := 2
  asmLen_pos := Nat.two_pos
  asmConj := fun j => if j = 0 then 1 else -1
  numHistoryFrames := 1
  numHead := 0

/-- Calls that fill a buffer in two parts, advance, and read the next symbol. -/
def taggedCalls : List (Layout.Call exactPlatform) :=
  [.readSignal [5, 6] unitSnr, .readSignal [7, 8] unitSnr, .advance, .readSignal [9] unitSnr]

theorem snr_covers_tagged : ∃ s : Session exactPlatform,
    Transition.run (Session.step taggedLayout) (Session.start taggedLayout) taggedCalls = some s ∧
      ∃ arguments, taggedLayout.snrArguments s.buffer 2 = some arguments ∧
        arguments.offsetStart ≤ 2 ∧ 2 < arguments.offsetStart + 3 := by
  obtain ⟨s, hrun, hoffset, hlast⟩ : ∃ s : Session exactPlatform,
      Transition.run (Session.step taggedLayout) (Session.start taggedLayout) taggedCalls =
        some s ∧ s.buffer.offset = 3 ∧ taggedLayout.offsetLastSymbol s.buffer = 4 :=
    ⟨_, rfl, rfl, rfl⟩
  obtain ⟨_, arguments, harguments, -, -, -, -, hle, hlt⟩ :=
    Session.snr_covers exactValues (show 0 < taggedLayout.blockLen by decide)
      (by simp [Session.ReadsWith, hasEnergies_unitSnr])
      ⟨.readSignal [5, 6] unitSnr, List.mem_cons_self, List.cons_ne_nil _ _⟩ hrun
      (show s.buffer.offset - 1 * 3 ≤ 2 by rw [hoffset]; decide)
      (show 2 ≤ taggedLayout.offsetLastSymbol s.buffer by rw [hlast]; decide)
  refine ⟨s, hrun, arguments, harguments, hle, hlt ?_⟩
  rw [hoffset]
  decide

end GrCcsds.FrameSync
