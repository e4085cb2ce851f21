import GrCcsds.Ambiguity.Constellation

/-! # The tags of the ambiguity resolver

The resolver stores the last value of every stream tag and copies the values
into the header of each frame, with `rx_time` moved to the start of the frame.
Numbers of both floating point types are of one type. An exception of a
conversion of pmt values is `none`.
-/

namespace GrCcsds.Ambiguity

open Utils

/-- The pmt values of tags and headers. -/
inductive Pmt (R : Type) where
  | uint64 (n : Nat)
  | integer (i : Int)
  | real (x : R)
  | symbol (s : String)
  | pair (car cdr : Pmt R)
  | tuple (items : List (Pmt R))

structure Tag (R : Type) where
  offset : Nat
  key : String
  value : Pmt R

/-- A dictionary of pmt values. -/
def Header (R : Type) : Type := String → Option (Pmt R)

namespace Header

variable {R : Type}

def empty : Header R := fun _ => none

def add (header : Header R) (key : String) (value : Pmt R) : Header R :=
  fun k => if k = key then some value else header k

@[simp] theorem add_self (header : Header R) (key : String) (value : Pmt R) :
    header.add key value key = some value := if_pos rfl

@[simp] theorem add_of_ne (header : Header R) {key other : String} (value : Pmt R)
    (hne : other ≠ key) : header.add key value other = header other := if_neg hne

end Header

section Conversions

variable {R : Type} [Arithmetic R]

def Pmt.toUInt64 : Pmt R → Option Nat
  | .uint64 n => some n
  | .integer i => if 0 ≤ i then some i.toNat else none
  | _ => none

def Pmt.toDouble : Pmt R → Option R
  | .real x => some x
  | .integer i => some (i : R)
  | _ => none

/-- The seconds and the fraction of an `rx_time` tag. The inner `none` is a value of the
wrong format. -/
def Pmt.readTime : Pmt R → Option (Option (Nat × R))
  | .pair car cdr =>
    match car.toUInt64, cdr.toDouble with
    | some sec, some frac => some (some (sec, frac))
    | _, _ => none
  | .tuple [first, second] =>
    match second.toUInt64, first.toDouble with
    | some sec, some frac => some (some (sec, frac))
    | _, _ => none
  | _ => some none

end Conversions

/-- The members of the block that belong to its tags. -/
structure TagStore (R : Type) where
  buffer : String → Option (Pmt R)
  lastUpdate : Nat
  lastRxTime : Nat

namespace TagStore

variable {R : Type}

def initial : TagStore R where
  buffer := fun _ => none
  lastUpdate := 0
  lastRxTime := 0

/-- Copy one tag to the buffer. -/
def copy (store : TagStore R) (tag : Tag R) : TagStore R :=
  { store with
    buffer := fun key => if key = tag.key then some tag.value else store.buffer key
    lastRxTime := if tag.key = "rx_time" then tag.offset else store.lastRxTime }

/-- `get_tags_in_range` for the tags of the stream in the order of their offsets. -/
def getTagsInRange (tags : List (Tag R)) (start stop : Nat) : List (Tag R) :=
  tags.filter fun tag => decide (start ≤ tag.offset) && decide (tag.offset < stop)

/-- `updateTags` with the number of items that have been read before the call. -/
def updateTags (tags : List (Tag R)) (nitemsRead untilOffset : Nat) (store : TagStore R) :
    TagStore R :=
  let start := max nitemsRead (store.lastUpdate + 1)
  if untilOffset < start then store
  else
    { (getTagsInRange tags start untilOffset).foldl copy store with lastUpdate := start }

/-- Everything in the buffer comes from a tag of the stream. -/
def Untagged (tags : List (Tag R)) (store : TagStore R) : Prop :=
  ∀ key, (∀ tag ∈ tags, tag.key ≠ key) → store.buffer key = none

/-- A key that no tag has stays out of the buffer. -/
theorem updateTags_untagged {tags : List (Tag R)} {key : String}
    (hkey : ∀ tag ∈ tags, tag.key ≠ key) (nitemsRead untilOffset : Nat) {store : TagStore R}
    (hempty : store.buffer key = none) :
    (store.updateTags tags nitemsRead untilOffset).buffer key = none := by
  have hfold : ∀ (copied : List (Tag R)) (store : TagStore R), (∀ tag ∈ copied, tag.key ≠ key) →
      store.buffer key = none → (copied.foldl copy store).buffer key = none := by
    intro copied
    induction copied with
    | nil => exact fun _ _ h => h
    | cons tag rest ih =>
        intro store hcopied hstore
        apply ih _ fun tag htag => hcopied tag (List.mem_cons_of_mem _ htag)
        simp [copy, hstore, (hcopied tag List.mem_cons_self).symm]
  unfold updateTags
  dsimp only
  split
  · exact hempty
  · exact hfold _ _ (fun tag htag => hkey tag (List.mem_filter.mp htag).1) hempty

variable [Arithmetic R]

/-- The time of a frame, from the time of a tag that lies a number of samples before it. -/
def frameTime (samplesDiff : Nat) (rate : R) (timeSec : Nat)
    (timeFrac : R) : Pmt R :=
  let wholeRate := Arithmetic.toUInt64 rate
  let passedSec := samplesDiff / wholeRate
  let passedFrac := ((samplesDiff % wholeRate : Nat) : R) / rate
  let frac := timeFrac + passedFrac
  .pair (.uint64 (timeSec + passedSec + Arithmetic.toUInt64 (Arithmetic.floor frac)))
    (.real (Arithmetic.fmodOne frac))

/-- Update the buffer until the end of a frame and copy it to a header, which has got its
`rx_time` before. -/
def copyToHeader (tags : List (Tag R)) (nitemsRead untilOffset : Nat)
    (time : Option (Pmt R)) (store : TagStore R) : Header R × TagStore R :=
  let store := store.updateTags tags nitemsRead untilOffset
  (fun key => if key = "rx_time" then time else store.buffer key, store)

/-- `extractTags`. An `rx_time` of a wrong format leaves the header empty. -/
def extractTags (tags : List (Tag R)) (nitemsRead start len : Nat) (store : TagStore R) :
    Option (Header R × TagStore R) :=
  if (store.buffer "rx_rate").isSome && (store.buffer "rx_time").isSome then
    let store := store.updateTags tags nitemsRead start
    let samplesDiff := minusWrap start store.lastRxTime
    match (store.buffer "rx_rate").bind Pmt.toDouble,
      (store.buffer "rx_time").bind Pmt.readTime with
    | some rate, some time =>
      if Arithmetic.toUInt64 rate = 0 then none
      else
        match time with
        | none => some (.empty, store)
        | some (timeSec, timeFrac) =>
          some (copyToHeader tags nitemsRead (start + len)
            (some (frameTime samplesDiff rate timeSec timeFrac)) store)
    | _, _ => none
  else some (copyToHeader tags nitemsRead (start + len) none store)

/-- A key that no tag has is neither in the header nor in the buffer. -/
theorem extractTags_untagged {tags : List (Tag R)} {key : String}
    (hkey : ∀ tag ∈ tags, tag.key ≠ key) {nitemsRead start len : Nat} {store : TagStore R}
    (hempty : store.buffer key = none) {header : Header R} {next : TagStore R}
    (hextract : extractTags tags nitemsRead start len store = some (header, next)) :
    header key = none ∧ next.buffer key = none := by
  have hupdated := updateTags_untagged hkey nitemsRead start hempty
  unfold extractTags at hextract
  dsimp only at hextract
  split at hextract
  next hpresent =>
    have htime : key ≠ "rx_time" := by
      rintro rfl
      simp [hempty] at hpresent
    split at hextract
    next =>
      split at hextract
      · cases hextract
      · split at hextract
        · cases hextract
          exact ⟨rfl, hupdated⟩
        · cases hextract
          have hnext := updateTags_untagged hkey nitemsRead (start + len) hupdated
          exact ⟨(if_neg htime).trans hnext, hnext⟩
    next => cases hextract
  next =>
    cases hextract
    have hnext := updateTags_untagged hkey nitemsRead (start + len) hempty
    refine ⟨?_, hnext⟩
    change (if key = "rx_time" then none else _) = none
    rw [hnext, ite_self]

end TagStore

end GrCcsds.Ambiguity
