import GrCcsds.Arithmetic
import GrCcsds.Randomiser.Block
import Mathlib.Data.Rat.Floor

/-! # What the randomisers publish

A byte of `get_next_byte` is the next eight bits of the register. The handler of
bytes returns for every blob that its counter can index, and combines it with
the output of the register from the seed. The handler of soft bits works in
groups of eight, so that it also needs a whole number of bytes.
-/

namespace GrCcsds.Randomiser

open Utils Messages
open Foundation CountingLoop
open FeedbackRegister (shift bit bits parity)

section Register

theorem inputBit_eq (poly state : BitVec 8) :
    inputBit poly state = (BitVec.ofBool (parity 8 (state &&& poly))).setWidth 8 := by
  have hfold : ∀ (indices : List Nat) (sum : Bool),
      indices.foldl (fun inputBit j => inputBit ^^^ ((state &&& poly) >>> j) &&& 1#8)
          ((BitVec.ofBool sum).setWidth 8) =
        (BitVec.ofBool (indices.foldl (fun sum j => sum ^^ (state &&& poly).getLsbD j)
          sum)).setWidth 8 := by
    intro indices
    induction indices with
    | nil => exact fun _ => rfl
    | cons j rest ih =>
        intro sum
        have hsum : (BitVec.ofBool sum).setWidth 8 ^^^ ((state &&& poly) >>> j) &&& 1#8 =
            (BitVec.ofBool (sum ^^ (state &&& poly).getLsbD j)).setWidth 8 := by
          rw [Bits.shiftRight_and_one]
          cases sum <;> cases (state &&& poly).getLsbD j <;> rfl
        rw [List.foldl_cons, List.foldl_cons, hsum, ih]
  exact hfold (List.range 8) false

theorem nextBit_eq (poly out state : BitVec 8) :
    nextBit poly (out, state) =
      (out <<< 1 ||| (BitVec.ofBool state.msb).setWidth 8, shift poly state) := by
  rw [nextBit, Bits.shiftRight_and_one, inputBit_eq, BitVec.msb_eq_getLsbD_last]
  rfl

/-- After some iterations, the output holds as many bits of the register. -/
theorem foldl_nextBit (poly state : BitVec 8) {count : Nat} (hcount : count ≤ 8) :
    ((List.range count).foldl (fun p _ => nextBit poly p) (0#8, state)).2 =
        (shift poly)^[count] state ∧
      Bits.low count ((List.range count).foldl (fun p _ => nextBit poly p) (0#8, state)).1 =
        bits poly state count := by
  induction count with
  | zero => exact ⟨rfl, rfl⟩
  | succ count ih =>
      obtain ⟨hstate, hout⟩ := ih (Nat.le_of_succ_le hcount)
      rw [List.range_succ, List.foldl_append, List.foldl_cons, List.foldl_nil]
      generalize (List.range count).foldl (fun p _ => nextBit poly p) (0#8, state) = p at *
      obtain ⟨out, next⟩ := p
      rw [nextBit_eq, FeedbackRegister.bits_succ, Function.iterate_succ_apply', ← hstate, ← hout]
      exact ⟨rfl, Bits.low_shiftLeft_one count out next.msb (Nat.lt_of_succ_le hcount)⟩

theorem getNextByte_state (poly state : BitVec 8) :
    (getNextByte poly state).2 = (shift poly)^[8] state := (foldl_nextBit poly state le_rfl).1

theorem low_getNextByte (poly state : BitVec 8) :
    Bits.low 8 (getNextByte poly state).1 = bits poly state 8 :=
  (foldl_nextBit poly state le_rfl).2

theorem getLsbD_getNextByte (poly state : BitVec 8) {j : Nat} (hj : j < 8) :
    (getNextByte poly state).1.getLsbD (7 - j) = bit poly state j := by
  have hbits := congrArg (fun bits => bits[j]?) (low_getNextByte poly state)
  simpa [bits, hj, List.getElem?_eq_getElem] using hbits

end Register

/-- A handler that publishes one message, whatever the output array contained before. -/
def Publishes {Other Float α : Type} (process : Nat → (Nat → α) → Members →
      Message Other Float → Except Fault (Members × List (Message Other Float)))
    (s : Members) (message published : Message Other Float) : Prop :=
  ∃ iterations, ∀ buffer, ∃ next, process iterations buffer s message = .ok (next, [published])

theorem publishes_iff {Other Float α : Type} {vector : Data Float → Option (List α)}
    {pack : List α → Data Float} {data : Data Float} {dataIn : List α}
    (loop : Nat → (Nat → α) → List α → BitVec 8 → Except Fault (Work α)) (c : Config) (s : Members)
    (hvector : vector data = some dataIn) (header : Header Other)
    (published : Message Other Float) :
    Publishes (fun iterations buffer => processFrame vector pack (loop iterations buffer) c) s
        (.pair (some header) data) published ↔
      ∃ iterations, ∀ buffer, ∃ w, loop iterations buffer dataIn c.seed = .ok w ∧
        .pair (some header) (pack ((List.range dataIn.length).map w.2)) = published := by
  refine exists_congr fun iterations => forall_congr' fun buffer => ?_
  simp only [processFrame, hvector]
  cases loop iterations buffer dataIn c.seed with
  | error fault => simp [Except.map]
  | ok w => simp [Except.map]

/-- What a loop has written, with the state of the register behind some bits an item. -/
structure Covers {α : Type} (c : Config) (bitsPerItem : Nat) (target : List α) (i : Nat)
    (w : Work α) : Prop where
  le : i ≤ target.length
  state : w.1 = (shift c.poly)^[bitsPerItem * i] c.seed
  out : ∀ p (hp : p < target.length), p < i → w.2 p = target[p]

theorem Covers.map_range {α : Type} {c : Config} {bitsPerItem i count : Nat} {target : List α}
    {w : Work α} (hcovers : Covers c bitsPerItem target i w) (hcount : target.length = count)
    (hend : count ≤ i) : (List.range count).map w.2 = target := by
  subst hcount
  apply List.ext_getElem
  · simp
  · intro p _ hp
    rw [List.getElem_map, List.getElem_range]
    exact hcovers.out p hp (Nat.lt_of_lt_of_le hp hend)

theorem covers_start {α : Type} (c : Config) (bitsPerItem : Nat) (target : List α)
    (buffer : Nat → α) : Covers c bitsPerItem target 0 (c.seed, buffer) :=
  ⟨Nat.zero_le _, rfl, fun _ _ h => absurd h (Nat.not_lt_zero _)⟩

namespace Hard

/-- The byte that is combined with byte `p` of a message. -/
def keyByte (poly seed : BitVec 8) (p : Nat) : UInt8 :=
  UInt8.ofBitVec (getNextByte poly ((shift poly)^[8 * p] seed)).1

def randomised (c : Config) (bytes : List UInt8) : List UInt8 :=
  bytes.mapIdx fun p x => x ^^^ keyByte c.poly c.seed p

variable {c : Config} {bytes : List UInt8} {i : Nat} {w next : Work UInt8}

@[simp] theorem length_randomised : (randomised c bytes).length = bytes.length := by
  simp [randomised]

theorem covers_body (hcovers : Covers c 8 (randomised c bytes) i w) (hi : i < bytes.length) :
    ∃ next, body c bytes i w = .ok next ∧ Covers c 8 (randomised c bytes) (i + 1) next := by
  obtain ⟨state, dataOut⟩ := w
  have hstate : state = (shift c.poly)^[8 * i] c.seed := hcovers.state
  refine ⟨_, by rw [body, List.getElem?_eq_getElem hi], ?_, ?_, ?_⟩
  · rw [length_randomised]
    exact hi
  · rw [getNextByte_state, hstate, ← Function.iterate_add_apply, Nat.add_comm, Nat.mul_succ]
  · intro p hp hlt
    by_cases hlast : p = i
    · subst hlast
      simp [randomised, keyByte, hstate]
    · have hbefore := hcovers.out p hp (Nat.lt_of_le_of_ne (Nat.le_of_lt_succ hlt) hlast)
      simpa [Function.update_of_ne hlast] using hbefore

theorem covers_of_body_ok (hshort : bytes.length < size32) (hi : i < bytes.length)
    (hcovers : Covers c 8 (randomised c bytes) i w) (hbody : body c bytes i w = .ok next) :
    Covers c 8 (randomised c bytes) ((i + 1) % size32) next := by
  obtain ⟨other, hother, hnext⟩ := covers_body hcovers hi
  cases hother.symm.trans hbody
  rwa [Nat.mod_eq_of_lt (Nat.lt_of_le_of_lt hi hshort)]

/-- The handler returns if the counter can count the bytes. -/
theorem publishes_iff {Other Float : Type} (c : Config) (s : Members) (header : Header Other)
    (bytes : List UInt8) (published : Message Other Float) :
    Publishes (process c) s (.pair (some header) (.blob bytes)) published ↔
      bytes.length < size32 ∧ .pair (some header) (.blob (randomised c bytes)) = published := by
  have hblob : Data.blobData (.blob bytes : Data Float) = some bytes := rfl
  refine (Randomiser.publishes_iff (workLoop c) c s hblob header published).trans ⟨?_, ?_⟩
  · rintro ⟨iterations, hreturns⟩
    obtain ⟨w, hloop, rfl⟩ := hreturns fun _ => 0
    have hshort : bytes.length < size32 := bound_lt_of_loop_ok (by decide) hloop
    obtain ⟨stop, hend, hcovers⟩ := loop_ok
      (fun _ _ _ hi hcovers hbody => covers_of_body_ok hshort hi hcovers hbody)
      (covers_start c 8 _ _) hloop
    rw [hcovers.map_range length_randomised hend]
    exact ⟨hshort, rfl⟩
  · rintro ⟨hshort, rfl⟩
    refine ⟨bytes.length + 1, fun buffer => ?_⟩
    have hbody : ∀ k < bytes.length, ∀ w, Covers c 8 (randomised c bytes) k w →
        ∃ next, body c bytes (k * 1) w = .ok next ∧
          Covers c 8 (randomised c bytes) (k + 1) next := by
      intro k hk w hcovers
      rw [Nat.mul_one]
      exact covers_body hcovers hk
    obtain ⟨w, hloop, hcovers⟩ : ∃ w, workLoop c (bytes.length + 1) buffer bytes c.seed = .ok w ∧
        Covers c 8 (randomised c bytes) bytes.length w :=
      exists_loop_ok (Nat.mul_one _).ge (by rwa [Nat.mul_one])
        (fun k hk => by rwa [Nat.mul_one]) hbody (covers_start c 8 _ buffer)
    exact ⟨w, hloop, by rw [hcovers.map_range length_randomised le_rfl]⟩

end Hard

namespace Soft

section Signs

variable {R : Type} [Arithmetic R]

/-- The factor of a bit of the register. -/
def sign (bit : Bool) : R := if bit then -1 else 1

def flipped (c : Config) (values : List R) : List R :=
  values.mapIdx fun i x => x * sign (bit c.poly c.seed i)

variable {c : Config} {values : List R} {i : Nat}

@[simp] theorem length_flipped : (flipped c values).length = values.length := by simp [flipped]

theorem prnBit_getNextByte (poly state : BitVec 8) {j : Nat} (hj : j < 8) :
    (prnBit (getNextByte poly state).1 j : R) = sign (bit poly state j) := by
  rw [prnBit, Bits.shiftRight_and_one, getLsbD_getNextByte poly state hj]
  cases bit poly state j <;> rfl

theorem foldlM_flip_succ (prnByte : BitVec 8) (dataOut : Nat → R) (count : Nat) :
    (List.range (count + 1)).foldlM (flip values prnByte i) dataOut =
      ((List.range count).foldlM (flip values prnByte i) dataOut).bind fun dataOut =>
        flip values prnByte i dataOut count := by
  rw [List.range_succ, List.foldlM_append]
  simp only [List.foldlM_cons, List.foldlM_nil, bind_pure]
  rfl

theorem flip_of_lt {prnByte : BitVec 8} {dataOut : Nat → R} {j : Nat}
    (hsize : i + j < size32) (hinside : i + j < values.length) :
    flip values prnByte i dataOut j =
      .ok (Function.update dataOut (i + j) (values[i + j] * prnBit prnByte j)) := by
  rw [flip, Nat.mod_eq_of_lt hsize, List.getElem?_eq_getElem hinside]

/-- A group that lies inside of the arrays. -/
theorem foldlM_flip_ok (prnByte : BitVec 8) (dataOut : Nat → R) {count : Nat}
    (hsize : i + count ≤ size32) (hinside : i + count ≤ values.length) :
    ∃ next, (List.range count).foldlM (flip values prnByte i) dataOut = .ok next ∧
      (∀ p < i, next p = dataOut p) ∧
      ∀ j (hj : j < count), next (i + j) = values[i + j] * prnBit prnByte j := by
  induction count with
  | zero => exact ⟨dataOut, rfl, fun _ _ => rfl, nofun⟩
  | succ count ih =>
      obtain ⟨next, hnext, hbefore, hgroup⟩ :=
        ih (Nat.le_of_succ_le hsize) (Nat.le_of_succ_le hinside)
      refine ⟨Function.update next (i + count) (values[i + count] * prnBit prnByte count),
        ?_, ?_, ?_⟩
      · rw [foldlM_flip_succ, hnext]
        exact flip_of_lt hsize hinside
      · intro p hp
        rw [Function.update_of_ne (by omega)]
        exact hbefore p hp
      · intro j hj
        by_cases hlast : j = count
        · subst hlast
          rw [Function.update_self]
        · rw [Function.update_of_ne (by omega)]
          exact hgroup j (by omega)

/-- A group with all accesses inside has its last item inside. -/
theorem foldlM_flip_inside {prnByte : BitVec 8} {dataOut next : Nat → R} {count : Nat}
    (hsize : i + count < size32)
    (hgroup : (List.range (count + 1)).foldlM (flip values prnByte i) dataOut = .ok next) :
    i + count < values.length := by
  rw [foldlM_flip_succ] at hgroup
  cases hbefore : (List.range count).foldlM (flip values prnByte i) dataOut with
  | error fault =>
      rw [hbefore] at hgroup
      cases hgroup
  | ok middle =>
      rw [hbefore] at hgroup
      change flip values prnByte i middle count = .ok next at hgroup
      by_contra hmore
      rw [flip, Nat.mod_eq_of_lt hsize, List.getElem?_eq_none (Nat.le_of_not_lt hmore)] at hgroup
      cases hgroup

theorem body_eq (state : BitVec 8) (dataOut : Nat → R) :
    body c values i (state, dataOut) =
      ((List.range 8).foldlM (flip values (getNextByte c.poly state).1 i) dataOut).map
        fun dataOut => ((getNextByte c.poly state).2, dataOut) := rfl

theorem covers_body {w : Work R} (hcovers : Covers c 1 (flipped c values) i w)
    (hsize : i + 8 ≤ size32) (hinside : i + 8 ≤ values.length) :
    ∃ next, body c values i w = .ok next ∧ Covers c 1 (flipped c values) (i + 8) next := by
  obtain ⟨state, dataOut⟩ := w
  have hstate : state = (shift c.poly)^[i] c.seed := Nat.one_mul i ▸ hcovers.state
  obtain ⟨next, hnext, hbefore, hgroup⟩ :=
    foldlM_flip_ok (getNextByte c.poly state).1 dataOut hsize hinside
  refine ⟨((getNextByte c.poly state).2, next), ?_, by rwa [length_flipped], ?_, ?_⟩
  · rw [body_eq, hnext]
    rfl
  · rw [getNextByte_state, hstate, ← Function.iterate_add_apply, Nat.one_mul, Nat.add_comm]
  · intro p hp hlt
    by_cases hold : p < i
    · exact (hbefore p hold).trans (hcovers.out p hp hold)
    · obtain ⟨j, rfl⟩ := Nat.exists_eq_add_of_le (Nat.le_of_not_lt hold)
      have hj : j < 8 := Nat.lt_of_add_lt_add_left hlt
      refine (hgroup j hj).trans ?_
      rw [prnBit_getNextByte _ _ hj, hstate, ← FeedbackRegister.bit_add]
      simp [flipped]

/-- A group that starts below the length and has been written ends inside of the arrays. -/
theorem covers_of_body_ok {w next : Work R} (hshort : values.length < size32)
    (hi : i < values.length) (hgroup : 8 ∣ i) (hcovers : Covers c 1 (flipped c values) i w)
    (hbody : body c values i w = .ok next) :
    8 ∣ (i + 8) % size32 ∧ Covers c 1 (flipped c values) ((i + 8) % size32) next := by
  obtain ⟨state, dataOut⟩ := w
  have hlast : i + 7 < size32 := by
    have hwords : 8 ∣ size32 := by decide
    obtain ⟨q, rfl⟩ := hgroup
    obtain ⟨words, hwords⟩ := hwords
    omega
  have hinside : i + 7 < values.length := by
    rw [body_eq] at hbody
    cases hflips : (List.range 8).foldlM (flip values (getNextByte c.poly state).1 i) dataOut with
    | error fault =>
        rw [hflips] at hbody
        cases hbody
    | ok _ => exact foldlM_flip_inside hlast hflips
  obtain ⟨other, hother, hnext⟩ := covers_body hcovers hlast hinside
  cases hother.symm.trans hbody
  rw [Nat.mod_eq_of_lt (Nat.lt_of_le_of_lt hinside hshort)]
  exact ⟨Nat.dvd_add_self_right.mpr hgroup, hnext⟩

/-- The handler returns if the counter can count the soft bits and they are groups of eight. -/
theorem publishes_iff {Other : Type} (c : Config) (s : Members) (header : Header Other)
    (values : List R) (published : Message Other R) :
    Publishes (process c) s (.pair (some header) (.f32vector values)) published ↔
      (8 ∣ values.length ∧ values.length < size32) ∧
        .pair (some header) (.f32vector (flipped c values)) = published := by
  have hvector : Data.f32vectorData (.f32vector values : Data R) = some values := rfl
  refine (Randomiser.publishes_iff (workLoop c) c s hvector header published).trans ⟨?_, ?_⟩
  · rintro ⟨iterations, hreturns⟩
    obtain ⟨w, hloop, rfl⟩ := hreturns fun _ => 0
    have hshort : values.length < size32 := bound_lt_of_loop_ok (by decide) hloop
    have hkeep : ∀ i w next, i < values.length →
        8 ∣ i ∧ Covers c 1 (flipped c values) i w → body c values i w = .ok next →
        8 ∣ (i + 8) % size32 ∧ Covers c 1 (flipped c values) ((i + 8) % size32) next :=
      fun _ _ _ hi hcovers hbody => covers_of_body_ok hshort hi hcovers.1 hcovers.2 hbody
    obtain ⟨stop, hend, hgroups, hcovers⟩ :=
      loop_ok hkeep ⟨Nat.dvd_zero 8, covers_start c 1 _ _⟩ hloop
    have hstop : stop = values.length := by
      apply Nat.le_antisymm _ hend
      simpa using hcovers.le
    rw [hcovers.map_range length_flipped hend]
    exact ⟨⟨hstop ▸ hgroups, hshort⟩, rfl⟩
  · rintro ⟨⟨hgroups, hshort⟩, rfl⟩
    obtain ⟨count, hcount⟩ := hgroups
    refine ⟨count + 1, fun buffer => ?_⟩
    have hbody : ∀ k < count, ∀ w, Covers c 1 (flipped c values) (k * 8) w →
        ∃ next, body c values (k * 8) w = .ok next ∧
          Covers c 1 (flipped c values) ((k + 1) * 8) next := by
      intro k hk w hcovers
      have hinside : k * 8 + 8 ≤ values.length := by omega
      rw [Nat.succ_mul]
      exact covers_body hcovers (hinside.trans hshort.le) hinside
    have hstart : Covers c 1 (flipped c values) (0 * 8) (c.seed, buffer) :=
      covers_start c 1 _ buffer
    obtain ⟨w, hloop, hcovers⟩ : ∃ w, workLoop c (count + 1) buffer values c.seed = .ok w ∧
        Covers c 1 (flipped c values) (count * 8) w :=
      exists_loop_ok (by omega) (by omega) (fun k hk => by omega) hbody hstart
    have hend : values.length ≤ count * 8 := by rw [hcount, Nat.mul_comm]
    exact ⟨w, hloop, by rw [hcovers.map_range length_flipped hend]⟩

/-- The handler publishes the soft bits with the signs that the register gives them, reading
and writing inside the arrays, for whole numbers of bytes that its counter can count. -/
theorem softbits_randomised_iff {Other : Type} (c : Config) (s : Members) (header : Header Other)
    (values : List R) :
    (∃ out : List R,
      Publishes (process c) s (.pair (some header) (.f32vector values))
          (.pair (some header) (.f32vector out)) ∧
        out.length = values.length ∧
        ∀ i (hi : i < values.length),
          out[i]? = some (values[i] * sign (bit c.poly c.seed i))) ↔
      8 ∣ values.length ∧ values.length < size32 := by
  constructor
  · rintro ⟨out, hpublishes, -⟩
    exact ((publishes_iff c s header values _).mp hpublishes).1
  · intro hlength
    refine ⟨flipped c values, (publishes_iff c s header values _).mpr ⟨hlength, rfl⟩,
      length_flipped, fun i hi => ?_⟩
    simp [flipped, hi]

end Signs

open scoped ExactNumbers

/-- A single soft bit. The second iteration of the group reads behind it. -/
theorem single_softbit_outside :
    (∀ iterations buffer,
      process ⟨0xA9, 0xFF⟩ (iterations + 1) buffer (Config.initial ⟨0xA9, 0xFF⟩)
          (.pair (some []) (.f32vector [1]) : Message Unit ℚ) = .error (.outside 1)) ∧
      ¬ ∃ out : List ℚ,
        Publishes (process ⟨0xA9, 0xFF⟩) (Config.initial ⟨0xA9, 0xFF⟩)
          (.pair (some []) (.f32vector [1]) : Message Unit ℚ)
          (.pair (some []) (.f32vector out)) := by
  refine ⟨fun iterations buffer => rfl, ?_⟩
  rintro ⟨out, hpublishes⟩
  exact absurd ((publishes_iff _ _ _ _ _).mp hpublishes).1.1 (by decide)

end Soft

end GrCcsds.Randomiser
