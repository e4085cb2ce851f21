import GrCcsds.Foundation.Collecting
import Mathlib.Data.List.Induction

/-! # Tag storage

`tag_storage_impl` keeps every tag of its input and drops the samples. A call
of `general_work` also looks at tags behind its samples, so that consecutive
calls see some tags twice. Offsets are natural numbers. The operations on pmt
objects and `get_tags_in_range` are parameters.
-/

namespace GrCcsds.TagStorage

open Foundation.Collecting

/-- The operations on pmt objects. Equality of the type is that of references. -/
structure PmtOperations (Pmt : Type) where
  intern : String → Pmt
  eqv : Pmt → Pmt → Bool
  isEofObject : Pmt → Bool

structure Tag (Pmt : Type) where
  offset : Nat
  key : Pmt
  value : Pmt
  srcid : Pmt
deriving DecidableEq

/-- What `general_work` returns. -/
inductive WorkResult where
  | workDone
  | items (n : Nat)
deriving DecidableEq

variable {Pmt : Type} [DecidableEq Pmt]

/-- The members of the block and the number of items it has consumed. -/
structure Block (Pmt : Type) where
  eofOffset : Option Nat
  tags : List (Tag Pmt)
  eofSignalled : Bool
  nitemsRead : Nat
deriving DecidableEq

/-- The condition under which a tag marks the end of the stream. -/
def Tag.IsEof (pmt : PmtOperations Pmt) (tag : Tag Pmt) : Prop :=
  pmt.eqv tag.key (pmt.intern "EOF") = true ∧ pmt.isEofObject tag.value = true

instance (pmt : PmtOperations Pmt) (tag : Tag Pmt) : Decidable (tag.IsEof pmt) :=
  inferInstanceAs (Decidable (_ ∧ _))

namespace Block

def initial : Block Pmt where
  eofOffset := none
  tags := []
  eofSignalled := false
  nitemsRead := 0

/-- One iteration of the loop of `processTags`. -/
def processTag (pmt : PmtOperations Pmt) (b : Block Pmt) (tag : Tag Pmt) : Block Pmt :=
  if tag ∈ b.tags then b
  else
    { b with
      tags := b.tags ++ [tag]
      eofOffset := if tag.IsEof pmt then some tag.offset else b.eofOffset }

variable (pmt : PmtOperations Pmt) (getTagsInRange : Nat → Nat → List (Tag Pmt))

def processTags (b : Block Pmt) (numInputs : Nat) : Block Pmt :=
  let start := b.nitemsRead
  let stop := start + numInputs + 20
  (getTagsInRange start stop).foldl (processTag pmt) b

/-- Whether the offset of an EOF tag lies at or below a position. -/
def eofReached (b : Block Pmt) (position : Nat) : Bool :=
  match b.eofOffset with
  | some offset => decide (offset ≤ position)
  | none => false

def generalWork (b : Block Pmt) (noutputItems : Nat) : WorkResult × Block Pmt :=
  let b := b.processTags pmt getTagsInRange noutputItems
  let eof := b.eofReached (b.nitemsRead + noutputItems)
  (if eof then .workDone else .items noutputItems,
    { b with
      nitemsRead := b.nitemsRead + noutputItems
      eofSignalled := b.eofSignalled || eof })

def stop (b : Block Pmt) : Block Pmt :=
  { b.processTags pmt getTagsInRange 0 with eofSignalled := true }

def numTags (b : Block Pmt) : Nat := b.tags.length

/-- The iterator advances once for every number below `num`. A violated assertion is `none`. -/
def getTag (b : Block Pmt) (num : Nat) : Option (Tag Pmt) :=
  if num < b.numTags then (Nat.repeat List.tail num b.tags).head? else none

def getTags (b : Block Pmt) : List (Tag Pmt) :=
  b.tags.foldl (fun tags tag => tags ++ [tag]) []

def finished (b : Block Pmt) : Bool := b.eofSignalled

end Block

/-- The calls of the runtime system. -/
inductive Call where
  | generalWork (noutputItems : Nat)
  | stop

namespace Block

variable (pmt : PmtOperations Pmt) (getTagsInRange : Nat → Nat → List (Tag Pmt))

def step (b : Block Pmt) : Call → Block Pmt
  | .generalWork noutputItems => (b.generalWork pmt getTagsInRange noutputItems).2
  | .stop => b.stop pmt getTagsInRange

def run (calls : List Call) : Block Pmt := calls.foldl (step pmt getTagsInRange) initial

end Block

/-- What `get_tags_in_range` is documented to return for the tags of a stream. -/
def ReadsTags (tags : List (Tag Pmt)) (getTagsInRange : Nat → Nat → List (Tag Pmt)) : Prop :=
  ∀ start stop,
    (getTagsInRange start stop).Perm
      (tags.filter fun tag => start ≤ tag.offset ∧ tag.offset < stop) ∧
    (getTagsInRange start stop).Pairwise fun x y => x.offset ≤ y.offset

namespace Block

variable {pmt : PmtOperations Pmt} {getTagsInRange : Nat → Nat → List (Tag Pmt)}
  {tags : List (Tag Pmt)}

omit [DecidableEq Pmt] in
@[simp] theorem getTags_eq (b : Block Pmt) : b.getTags = b.tags := by
  have hcopy : ∀ copied rest : List (Tag Pmt),
      rest.foldl (fun tags tag => tags ++ [tag]) copied = copied ++ rest := by
    intro copied rest
    induction rest generalizing copied with
    | nil => simp
    | cons tag rest ih => simp [ih]
  exact hcopy [] b.tags

omit [DecidableEq Pmt] in
/-- The single tags are those of the list. -/
theorem getTag_eq (b : Block Pmt) (num : Nat) : b.getTag num = b.getTags[num]? := by
  have hadvance : ∀ (n : Nat) (l : List (Tag Pmt)), Nat.repeat List.tail n l = l.drop n := by
    intro n l
    induction n with
    | zero => rfl
    | succ n ih => rw [Nat.repeat, ih, List.tail_drop]
  rw [getTag, numTags, hadvance, List.head?_drop, getTags_eq]
  split
  next => rfl
  next houtside => rw [List.getElem?_eq_none (Nat.not_lt.mp houtside)]

section ProcessTags

@[simp] theorem processTag_tags (b : Block Pmt) (tag : Tag Pmt) :
    (b.processTag pmt tag).tags = append b.tags tag := by
  unfold processTag append
  split <;> rfl

@[simp] theorem processTag_nitemsRead (b : Block Pmt) (tag : Tag Pmt) :
    (b.processTag pmt tag).nitemsRead = b.nitemsRead := by
  unfold processTag
  split <;> rfl

@[simp] theorem processTag_eofSignalled (b : Block Pmt) (tag : Tag Pmt) :
    (b.processTag pmt tag).eofSignalled = b.eofSignalled := by
  unfold processTag
  split <;> rfl

theorem foldl_processTag_tags (batch : List (Tag Pmt)) (b : Block Pmt) :
    (batch.foldl (processTag pmt) b).tags = batch.foldl append b.tags := by
  induction batch generalizing b with
  | nil => rfl
  | cons tag rest ih => simp [ih]

@[simp] theorem processTags_tags (b : Block Pmt) (numInputs : Nat) :
    (b.processTags pmt getTagsInRange numInputs).tags =
      (getTagsInRange b.nitemsRead (b.nitemsRead + numInputs + 20)).foldl append b.tags :=
  foldl_processTag_tags _ b

/-- What one tag does not change the tags of a look-up do not change either. -/
theorem foldl_processTag_eq {α : Type} {field : Block Pmt → α}
    (hfield : ∀ b tag, field (processTag pmt b tag) = field b) (batch : List (Tag Pmt))
    (b : Block Pmt) : field (batch.foldl (processTag pmt) b) = field b := by
  induction batch generalizing b with
  | nil => rfl
  | cons tag rest ih => rw [List.foldl_cons, ih, hfield]

@[simp] theorem processTags_nitemsRead (b : Block Pmt) (numInputs : Nat) :
    (b.processTags pmt getTagsInRange numInputs).nitemsRead = b.nitemsRead :=
  foldl_processTag_eq processTag_nitemsRead _ b

@[simp] theorem processTags_eofSignalled (b : Block Pmt) (numInputs : Nat) :
    (b.processTags pmt getTagsInRange numInputs).eofSignalled = b.eofSignalled :=
  foldl_processTag_eq processTag_eofSignalled _ b

/-- As soon as an EOF tag is stored, the offset of a stored EOF tag is known. -/
def EofKnown (pmt : PmtOperations Pmt) (b : Block Pmt) : Prop :=
  (∃ tag ∈ b.tags, tag.IsEof pmt) →
    ∃ tag ∈ b.tags, tag.IsEof pmt ∧ b.eofOffset = some tag.offset

theorem EofKnown.processTag {b : Block Pmt} (hknown : b.EofKnown pmt) (tag : Tag Pmt) :
    (b.processTag pmt tag).EofKnown pmt := by
  unfold Block.processTag
  split
  next => exact hknown
  next =>
    by_cases heof : tag.IsEof pmt
    · intro _
      exact ⟨tag, by simp, heof, by simp [heof]⟩
    · rintro ⟨stored, hstored, hmarks⟩
      have hold : stored ∈ b.tags := by
        rcases List.mem_append.mp hstored with hold | hnew
        · exact hold
        · exact absurd hmarks (List.mem_singleton.mp hnew ▸ heof)
      obtain ⟨known, hmem, hmarksKnown, hoffset⟩ := hknown ⟨stored, hold, hmarks⟩
      exact ⟨known, List.mem_append_left _ hmem, hmarksKnown, by simp [heof, hoffset]⟩

theorem EofKnown.foldl {b : Block Pmt} (hknown : b.EofKnown pmt) (batch : List (Tag Pmt)) :
    (batch.foldl (Block.processTag pmt) b).EofKnown pmt := by
  induction batch generalizing b with
  | nil => exact hknown
  | cons tag rest ih => exact ih (hknown.processTag tag)

end ProcessTags

/-- What holds in every state of a run: the tags up to at most 20 items behind the consumed ones
are stored, and so is the offset of an EOF tag among them. -/
structure Stored (pmt : PmtOperations Pmt) (tags : List (Tag Pmt)) (b : Block Pmt) : Prop where
  collected : ∃ frontier, b.nitemsRead ≤ frontier ∧ frontier ≤ b.nitemsRead + 20 ∧
    Collected Tag.offset tags frontier b.tags
  eofKnown : b.EofKnown pmt

omit [DecidableEq Pmt] in
theorem stored_initial (pmt : PmtOperations Pmt) (tags : List (Tag Pmt)) :
    initial.Stored pmt tags where
  collected := ⟨0, Nat.le_refl _, Nat.zero_le _, .nil fun tag _ => Nat.zero_le tag.offset⟩
  eofKnown := fun ⟨_, hmem, _⟩ => absurd hmem List.not_mem_nil

end Block

omit [DecidableEq Pmt] in
/-- The look-ups of the block are look-ups in the tags of the stream. -/
theorem ReadsTags.lookUp {tags : List (Tag Pmt)} {getTagsInRange : Nat → Nat → List (Tag Pmt)}
    (hreads : ReadsTags tags getTagsInRange) (hnodup : tags.Nodup) (start stop : Nat) :
    LookUp Tag.offset tags start stop (getTagsInRange start stop) := by
  obtain ⟨hperm, hsorted⟩ := hreads start stop
  refine ⟨hperm.nodup_iff.mpr (hnodup.filter _), ?_, hsorted⟩
  intro tag
  rw [hperm.mem_iff, List.mem_filter, decide_eq_true_iff]

namespace Block

variable {pmt : PmtOperations Pmt} {getTagsInRange : Nat → Nat → List (Tag Pmt)}
  {tags : List (Tag Pmt)}

theorem run_concat (calls : List Call) (call : Call) :
    run pmt getTagsInRange (calls ++ [call]) =
      (run pmt getTagsInRange calls).step pmt getTagsInRange call :=
  List.foldl_concat ..

section Run

variable (hnodup : tags.Nodup) (hreads : ReadsTags tags getTagsInRange)

include hnodup hreads

/-- A call of `processTags` stores the tags up to 20 items behind its samples. -/
theorem Stored.processTags {b : Block Pmt} (hstored : b.Stored pmt tags) (numInputs : Nat) :
    Collected Tag.offset tags (b.nitemsRead + numInputs + 20)
      (b.processTags pmt getTagsInRange numInputs).tags := by
  obtain ⟨frontier, hread, hahead, hcollected⟩ := hstored.collected
  rw [processTags_tags]
  exact hcollected.lookUp (hreads.lookUp hnodup _ _) hread (by omega)

theorem Stored.step {b : Block Pmt} (hstored : b.Stored pmt tags) (call : Call) :
    (b.step pmt getTagsInRange call).Stored pmt tags := by
  have heofKnown : ∀ numInputs, (b.processTags pmt getTagsInRange numInputs).EofKnown pmt :=
    fun numInputs => hstored.eofKnown.foldl _
  cases call with
  | generalWork noutputItems =>
      refine ⟨⟨b.nitemsRead + noutputItems + 20, ?_, ?_, ?_⟩, heofKnown noutputItems⟩
      · simp [Block.step, generalWork]
      · simp [Block.step, generalWork]
      · exact hstored.processTags hnodup hreads noutputItems
  | stop =>
      refine ⟨⟨b.nitemsRead + 20, ?_, ?_, ?_⟩, heofKnown 0⟩
      · simp [Block.step, Block.stop]
      · simp [Block.step, Block.stop]
      · exact hstored.processTags hnodup hreads 0

variable (pmt) in
theorem stored_run (calls : List Call) : (run pmt getTagsInRange calls).Stored pmt tags := by
  induction calls using List.reverseRecOn with
  | nil => exact stored_initial pmt tags
  | append_singleton calls call ih =>
      rw [run_concat]
      exact ih.step hnodup hreads call

/-- The only EOF tag of a stream is found by the call that consumes its sample. -/
theorem Stored.eofReached {b : Block Pmt} (hstored : b.Stored pmt tags) {eof : Tag Pmt}
    (hmem : eof ∈ tags) (hmarks : eof.IsEof pmt) (honly : ∀ tag ∈ tags, tag.IsEof pmt → tag = eof)
    {noutputItems : Nat} (hlt : eof.offset < b.nitemsRead + noutputItems) :
    (b.processTags pmt getTagsInRange noutputItems).eofReached (b.nitemsRead + noutputItems) =
      true := by
  have hcollected := hstored.processTags hnodup hreads noutputItems
  have heof := (hcollected.mem_iff eof).mpr ⟨hmem, by omega⟩
  obtain ⟨known, hknown, hmarksKnown, hoffset⟩ := hstored.eofKnown.foldl _ ⟨eof, heof, hmarks⟩
  obtain rfl := honly known ((hcollected.mem_iff known).mp hknown).1 hmarksKnown
  have hfound : (b.processTags pmt getTagsInRange noutputItems).eofOffset = some known.offset :=
    hoffset
  rw [Block.eofReached, hfound]
  exact decide_eq_true hlt.le

theorem finished_of_eof_consumed {eof : Tag Pmt} (hmem : eof ∈ tags) (hmarks : eof.IsEof pmt)
    (honly : ∀ tag ∈ tags, tag.IsEof pmt → tag = eof) (calls : List Call)
    (hconsumed : eof.offset < (run pmt getTagsInRange calls).nitemsRead) :
    (run pmt getTagsInRange calls).finished = true := by
  cases calls using List.reverseRecOn with
  | nil => exact absurd hconsumed (Nat.not_lt_zero _)
  | append_singleton calls call =>
      have hstored := stored_run pmt hnodup hreads calls
      rw [run_concat] at hconsumed ⊢
      cases call with
      | generalWork noutputItems =>
          have hlt : eof.offset < (run pmt getTagsInRange calls).nitemsRead + noutputItems := by
            simpa [step, generalWork] using hconsumed
          simp [step, generalWork, finished,
            hstored.eofReached hnodup hreads hmem hmarks honly hlt]
      | stop => rfl

end Run

theorem finished_step {b : Block Pmt} (hfinished : b.finished = true) (call : Call) :
    (b.step pmt getTagsInRange call).finished = true := by
  have hsignalled : b.eofSignalled = true := hfinished
  cases call with
  | generalWork noutputItems => simp [step, generalWork, finished, hsignalled]
  | stop => rfl

theorem finished_foldl {b : Block Pmt} (hfinished : b.finished = true) (calls : List Call) :
    (calls.foldl (step pmt getTagsInRange) b).finished = true := by
  induction calls generalizing b with
  | nil => exact hfinished
  | cons call rest ih => exact ih (finished_step hfinished call)

/-- In every run each tag of a consumed item is stored once, no tag is stored twice, the tags are
in order, and the block stays finished from the consumption of the EOF tag on. -/
theorem records_every_tag_once (pmt : PmtOperations Pmt)
    (getTagsInRange : Nat → Nat → List (Tag Pmt)) (hnodup : tags.Nodup)
    (hreads : ReadsTags tags getTagsInRange) (calls : List Call) :
    let b := run pmt getTagsInRange calls
    (∀ tag ∈ tags, tag.offset < b.nitemsRead → b.getTags.count tag = 1) ∧
    b.getTags.Nodup ∧
    (b.getTags.Pairwise fun x y => x.offset ≤ y.offset) ∧
    (b.finished = true → ∀ more, (run pmt getTagsInRange (calls ++ more)).finished = true) ∧
    ∀ eof ∈ tags, eof.IsEof pmt → (∀ tag ∈ tags, tag.IsEof pmt → tag = eof) →
      eof.offset < b.nitemsRead → b.finished = true := by
  intro b
  obtain ⟨frontier, hread, -, hcollected⟩ := (stored_run pmt hnodup hreads calls).collected
  rw [getTags_eq]
  refine ⟨?_, hcollected.nodup, hcollected.sorted, ?_, ?_⟩
  · intro tag htag hconsumed
    exact hcollected.count_eq_one htag (hconsumed.trans_le hread)
  · intro hfinished more
    rw [run, List.foldl_append]
    exact finished_foldl hfinished more
  · intro eof hmem hmarks honly hconsumed
    exact finished_of_eof_consumed hnodup hreads hmem hmarks honly calls hconsumed

/-- Numbers as pmt objects: 1 is the key of EOF tags and 2 the EOF object. -/
def numberOperations : PmtOperations Nat where
  intern := fun name => if name = "EOF" then 1 else 0
  eqv := fun x y => x == y
  isEofObject := fun x => x == 2

/-- A stream whose second tag is also seen by the call before the one that consumes it. -/
def markedStream : List (Tag Nat) := [⟨3, 0, 0, 0⟩, ⟨25, 0, 7, 0⟩, ⟨40, 1, 2, 0⟩]

def readMarkedStream (start stop : Nat) : List (Tag Nat) :=
  markedStream.filter fun tag => start ≤ tag.offset ∧ tag.offset < stop

theorem readsTags_markedStream : ReadsTags markedStream readMarkedStream := by
  intro start stop
  have hsorted : markedStream.Pairwise fun x y => x.offset ≤ y.offset := by decide
  exact ⟨List.Perm.refl _, hsorted.filter _⟩

theorem records_every_tag_once_markedStream :
    (run numberOperations readMarkedStream
      [.generalWork 10, .generalWork 0, .generalWork 31, .stop]).getTags.count
        ⟨25, 0, 7, 0⟩ = 1 ∧
    (run numberOperations readMarkedStream [.generalWork 10, .generalWork 31]).finished = true :=
  ⟨(records_every_tag_once numberOperations readMarkedStream (by decide)
      readsTags_markedStream _).1 _ (by decide) (by decide),
    (records_every_tag_once numberOperations readMarkedStream (by decide)
      readsTags_markedStream _).2.2.2.2 ⟨40, 1, 2, 0⟩ (by decide) (by decide) (by decide)
      (by decide)⟩

end Block

end GrCcsds.TagStorage
