import GrCcsds.Ambiguity.Run
import Mathlib.Algebra.Ring.Int.Defs

/-! # The messages of a lock

The messages between an entry into the lock and its loss are the frames of the
stream at multiples of the period, the same ones in every run.
-/

namespace GrCcsds.Ambiguity

open Utils Foundation

variable {R : Type} [Arithmetic R] {cfg : Config R} {stream : Nat → R} {tags : List (Tag R)}

/-- The entries that the block itself puts into a header. -/
def frameKeys : List String := ["frame_number", "frame_offset", "frame_correlation"]

/-- Two messages only differ in header entries that have been copied from tags. -/
def Message.SameFrame (tags : List (Tag R)) (first second : Message R) : Prop :=
  first.bits = second.bits ∧
    ∀ key, (key ∈ frameKeys ∨ ∀ tag ∈ tags, tag.key ≠ key) →
      first.header key = second.header key

theorem IsFrame.sameFrame {position ambiguity number : Nat} {correlation : R}
    {first second : Message R}
    (hfirst : IsFrame cfg stream tags position ambiguity number correlation first)
    (hsecond : IsFrame cfg stream tags position ambiguity number correlation second) :
    first.SameFrame tags second := by
  refine ⟨hfirst.bits.trans hsecond.bits.symm, ?_⟩
  rintro key (hkey | huntagged)
  · simp only [frameKeys, List.mem_cons, List.not_mem_nil, or_false] at hkey
    rcases hkey with rfl | rfl | rfl
    · exact hfirst.frameNumber.trans hsecond.frameNumber.symm
    · exact hfirst.frameOffset.trans hsecond.frameOffset.symm
    · exact hfirst.frameCorrelation.trans hsecond.frameCorrelation.symm
  · exact (hfirst.untagged key huntagged).trans (hsecond.untagged key huntagged).symm

omit [Arithmetic R] in
/-- A header without entries from tags is that of the block. -/
theorem Message.SameFrame.eq {first second : Message R} (hsame : first.SameFrame [] second) :
    first = second := by
  obtain ⟨hbits, hheader⟩ := hsame
  have hheaders : first.header = second.header :=
    funext fun key => hheader key (.inr fun _ hmem => absurd hmem List.not_mem_nil)
  cases first
  cases second
  exact congrArg₂ Message.mk hheaders hbits

section Log

variable {before after : List (Event R)} {messages : List (Message R)}
  {position ambiguity number : Nat} {correlation : R}

omit [Arithmetic R] in
/-- The lock after some of its messages. -/
theorem currentLock_messages (before : List (Event R)) (messages : List (Message R))
    (position ambiguity number : Nat) (correlation : R) :
    currentLock (before ++ .locked position ambiguity number correlation ::
        messages.map .message) =
      some { position := position, ambiguity := ambiguity, frameCount := number,
             correlation := correlation, frames := messages.length } := by
  have hfold := foldl_track_messages ⟨position, ambiguity, number, correlation, 0⟩ messages
  rw [Nat.zero_add] at hfold
  rw [currentLock, List.foldl_append, List.foldl_cons]
  exact hfold

/-- A lock begins behind an ASM. -/
theorem Valid.locked (hvalid : Valid cfg stream tags
      (before ++ .locked position ambiguity number correlation :: after)) :
    cfg.correlationThreshold < correlation ∧
      (correlation = -1 ∨ AsmBefore cfg stream position ambiguity correlation) := by
  have hfits := hvalid.fits
  cases hcurrent : currentLock before with
  | none => rwa [hcurrent] at hfits
  | some lock =>
      rw [hcurrent] at hfits
      exact hfits.elim

theorem Valid.message (hvalid : Valid cfg stream tags
      (before ++ .locked position ambiguity number correlation ::
        (messages.map .message ++ after)))
    {k : Nat} {message : Message R} (hmessage : messages[k]? = some message) :
    IsFrame cfg stream tags (position + k * cfg.period) ambiguity (number + k) correlation
        message ∧
      confidence cfg stream position ambiguity k ≠ none := by
  obtain ⟨hk, rfl⟩ := List.getElem?_eq_some_iff.mp hmessage
  -- before message k the log ends with the k messages in front of it
  have hsplit : before ++ .locked position ambiguity number correlation ::
      (messages.map .message ++ after) =
        (before ++ .locked position ambiguity number correlation ::
          (messages.take k).map .message) ++
            .message messages[k] :: ((messages.drop (k + 1)).map .message ++ after) := by
    conv_lhs => rw [← List.take_append_drop k messages, List.drop_eq_getElem_cons hk]
    simp only [List.map_append, List.map_cons, List.append_assoc, List.cons_append]
  rw [hsplit] at hvalid
  have hfits := hvalid.fits
  rwa [currentLock_messages, List.length_take, Nat.min_eq_left hk.le] at hfits

theorem Valid.lost {rest : List (Event R)} (hvalid : Valid cfg stream tags
      (before ++ .locked position ambiguity number correlation ::
        (messages.map .message ++ .lost :: rest))) :
    confidence cfg stream position ambiguity messages.length = none := by
  rw [← List.cons_append, ← List.append_assoc] at hvalid
  have hfits := hvalid.fits
  rwa [currentLock_messages] at hfits

end Log

namespace Machine

/-- Every event of a run fits. -/
theorem tracks_of_reachable {m : Machine R}
    (hreachable : Transition.Reachable (step cfg stream tags) (fun _ _ => True) start m) :
    Tracks cfg stream tags m :=
  hreachable.invariant tracks_start fun _ _ _ htracks _ hstep => htracks.step hstep

/-- Unless an exception has stopped the block, it has sent exactly the frames of its lock
that end before the position it has come to. -/
theorem message_sent_iff {m : Machine R}
    (hreachable : Transition.Reachable (step cfg stream tags) (fun _ _ => True) start m)
    (hraised : m.point ≠ .raised) {before : List (Event R)} {messages : List (Message R)}
    {position ambiguity number : Nat} {correlation : R}
    (hlog : m.log = before ++ .locked position ambiguity number correlation ::
      messages.map .message) (k : Nat) :
    k < messages.length ↔
      position + k * cfg.period + cfg.messageLen ≤ m.base + m.resolver.offsetBits := by
  have htracks := tracks_of_reachable hreachable
  have hcurrent := hlog ▸ currentLock_messages before messages position ambiguity number correlation
  cases hstate : m.resolver.state with
  | search => simp [(htracks.search hraised hstate).1] at hcurrent
  | lock =>
      obtain ⟨lock, hlock, hcases⟩ := htracks.lock hraised hstate
      obtain rfl := Option.some.inj (hlock.symm.trans hcurrent)
      -- The frames have a common length, so their ends are ordered as their numbers.
      have hmono : ∀ {i j : Nat}, i ≤ j → i * cfg.period ≤ j * cfg.period :=
        fun h => Nat.mul_le_mul_right _ h
      rcases hcases with ⟨hfilling, hcount⟩ | hchecking
      · have hreached := hfilling.position
        simp only [Lock.next] at hreached
        constructor
        · intro hk
          have hnext := hmono hk
          rw [Nat.succ_mul] at hnext
          simp only [Config.period] at hnext hreached ⊢
          omega
        · intro hend
          by_contra hk
          have hnext := hmono (Nat.le_of_not_lt hk)
          omega
      · obtain ⟨n, hframes, -, hreached, -⟩ := hchecking.confidence
        dsimp only at hframes hreached
        rw [hframes, Nat.lt_succ_iff]
        constructor
        · intro hk
          have hnext := hmono hk
          omega
        · intro hend
          by_contra hk
          have hnext := hmono (Nat.lt_of_not_le hk)
          rw [Nat.succ_mul] at hnext
          simp only [Config.period] at hnext hreached hend
          have hasm := cfg.asmLenBits_pos
          omega

/-- In a stream without tags, two runs that find the same lock send equal messages. -/
theorem lock_messages_eq {first second : Machine R}
    (hfirst : Transition.Reachable (step cfg stream []) (fun _ _ => True) start first)
    (hsecond : Transition.Reachable (step cfg stream []) (fun _ _ => True) start second)
    {before before' after after' : List (Event R)} {messages messages' : List (Message R)}
    {position ambiguity number : Nat} {correlation : R}
    (hlog : first.log = before ++ .locked position ambiguity number correlation ::
      (messages.map .message ++ after))
    (hlog' : second.log = before' ++ .locked position ambiguity number correlation ::
      (messages'.map .message ++ after'))
    {k : Nat} {message message' : Message R} (hmessage : messages[k]? = some message)
    (hmessage' : messages'[k]? = some message') : message = message' := by
  have hvalid := hlog ▸ (tracks_of_reachable hfirst).valid
  have hvalid' := hlog' ▸ (tracks_of_reachable hsecond).valid
  exact ((hvalid.message hmessage).1.sameFrame (hvalid'.message hmessage').1).eq

end Machine

section Examples

/-- Soft bits in fixed-point representation. -/
local instance : Arithmetic Int where
  decidableLT := inferInstance
  decidableLE := inferInstance
  floor := id
  fmodOne := fun _ => 0
  toUInt64 := Int.toNat

/-- BPSK with an ASM of a single bit. -/
def bitConfig : Config Int where
  ldM := 1
  ldM_pos := by decide
  ldM_le := by decide
  asm := fun _ => 1
  asmLenBits := 1
  asmLenBits_pos := by decide
  threshold := 2
  correlationThreshold := 0
  frameLenBits := 8
  le_frameLenBits := by decide
  numTailSyms := 0

end Examples

end GrCcsds.Ambiguity
