import GrCcsds.Foundation.Transition
import GrCcsds.Utils

/-! # Message sources

`blob_msg_source_b_impl` and `softbit_msg_source_f_impl`. The message handler
fills a queue and `work` drains it. The source of blobs keeps the headers in a
second queue and attaches them as tags. Reading the front of an empty queue is
`none`.
-/

namespace GrCcsds.Messages

open Utils

/-- The pmt values of tags and headers. -/
inductive Pmt (Other : Type) where
  | symbol (name : String)
  | uint64 (n : Nat)
  | other (value : Other)
deriving DecidableEq

/-- The items of a dictionary. -/
abbrev Header (Other : Type) := List (Pmt Other × Pmt Other)

/-- The data of a message as the handlers tell it apart. -/
inductive Data (Float : Type) where
  | blob (bytes : List UInt8)
  | f32vector (values : List Float)
  | other

def Data.blobData {Float : Type} : Data Float → Option (List UInt8)
  | .blob bytes => some bytes
  | _ => none

def Data.f32vectorData {Float : Type} : Data Float → Option (List Float)
  | .f32vector values => some values
  | _ => none

/-- A message on the input port. A header that is no dictionary is `none`. -/
inductive Message (Other Float : Type) where
  | eof
  | notPair
  | pair (header : Option (Header Other)) (data : Data Float)

/-- A tag that a block adds to its output. -/
structure Tag (Other : Type) where
  offset : Nat
  key : Pmt Other
  value : Pmt Other
deriving DecidableEq

/-- What a call of `work` returns, with the items it outputs. -/
inductive WorkResult (α : Type) where
  | endOfStream
  | produced (items : List α)
deriving DecidableEq

@[simp] def WorkResult.items {α : Type} : WorkResult α → List α
  | .endOfStream => []
  | .produced items => items

variable {Other Float α : Type}

/-- The checks of `process_message` on a message other than EOF: its header and its items if
it is not skipped. -/
def receive (len : Nat) (vector : Data Float → Option (List α)) :
    Message Other Float → Option (Header Other × List α)
  | .pair (some header) data =>
    match vector data with
    | some items => if items.length ≠ len then none else some (header, items)
    | none => none
  | _ => none

/-- A source whose `work` function only copies the queue. -/
structure Source (α : Type) where
  queue : List α
  stop : Bool
deriving DecidableEq

namespace Source

def initial : Source α where
  queue := []
  stop := false

def processMessage (len : Nat) (vector : Data Float → Option (List α)) (s : Source α)
    (msgIn : Message Other Float) : Source α :=
  if s.stop then s
  else
    match msgIn with
    | .eof => { s with stop := true }
    | _ =>
      match receive len vector msgIn with
      | some (_, items) => { s with queue := s.queue ++ items }
      | none => s

/-- One iteration of the loop of `work`. -/
def iteration (s : Source α) : Option (α × Source α) :=
  match s.queue with
  | [] => none
  | item :: rest => some (item, { s with queue := rest })

def workLoop : Nat → Source α → Option (List α × Source α)
  | 0, s => some ([], s)
  | count + 1, s =>
    s.iteration.bind fun (item, next) =>
      (workLoop count next).map fun (items, last) => (item :: items, last)

def work (s : Source α) (noutputItems : Nat) : Option (WorkResult α × Source α) :=
  if s.stop ∧ s.queue.length = 0 then some (.endOfStream, s)
  else
    (workLoop (pickSmaller noutputItems s.queue.length) s).map fun (items, next) =>
      (.produced items, next)

end Source

namespace SoftbitSource

/-- `softbit_msg_source_f` has no members but the queue and the flag. -/
def processMessage (frameLen : Nat) :
    Source Float → Message Other Float → Source Float :=
  Source.processMessage frameLen Data.f32vectorData

def work : Source Float → Nat → Option (WorkResult Float × Source Float) := Source.work

end SoftbitSource

/-- The parameters of `blob_msg_source_b`. -/
structure BlobConfig where
  blobLen : Nat
  lengthTagName : String

namespace BlobConfig

def lengthTagKey (c : BlobConfig) : Pmt Other := .symbol c.lengthTagName

def lengthTagValue (c : BlobConfig) : Pmt Other := .uint64 c.blobLen

end BlobConfig

structure BlobSource (Other : Type) where
  queue : List UInt8
  metadataQueue : List (Header Other)
  numBytesCopied : Nat
  stop : Bool

namespace BlobSource

variable (c : BlobConfig)

def initial : BlobSource Other where
  queue := []
  metadataQueue := []
  numBytesCopied := 0
  stop := false

def processMessage (s : BlobSource Other) (msgIn : Message Other Float) : BlobSource Other :=
  if s.stop then s
  else
    match msgIn with
    | .eof => { s with stop := true }
    | _ =>
      match receive c.blobLen Data.blobData msgIn with
      | some (header, bytes) =>
        { s with queue := s.queue ++ bytes, metadataQueue := s.metadataQueue ++ [header] }
      | none => s

/-- The tags of a message whose first byte has the given offset. -/
def messageTags (offset : Nat) (header : Header Other) : List (Tag Other) :=
  { offset, key := c.lengthTagKey, value := c.lengthTagValue } ::
    header.map fun (key, value) => { offset, key, value }

/-- The tags that an iteration adds, and the queue of headers after it. -/
def nextTags (s : BlobSource Other) : Option (List (Tag Other) × List (Header Other)) :=
  if s.numBytesCopied % c.blobLen = 0 then
    match s.metadataQueue with
    | [] => none
    | header :: rest => some (messageTags c s.numBytesCopied header, rest)
  else some ([], s.metadataQueue)

/-- One iteration of the loop of `work`. -/
def iteration (s : BlobSource Other) :
    Option (UInt8 × List (Tag Other) × BlobSource Other) :=
  (s.nextTags c).bind fun (tags, metadataQueue) =>
    match s.queue with
    | [] => none
    | byte :: rest =>
      some (byte, tags,
        { s with queue := rest, metadataQueue, numBytesCopied := s.numBytesCopied + 1 })

def workLoop : Nat → BlobSource Other → Option (List UInt8 × List (Tag Other) × BlobSource Other)
  | 0, s => some ([], [], s)
  | count + 1, s =>
    (s.iteration c).bind fun (byte, tags, next) =>
      (workLoop count next).map fun (bytes, moreTags, last) =>
        (byte :: bytes, tags ++ moreTags, last)

def work (s : BlobSource Other) (noutputItems : Nat) :
    Option (WorkResult UInt8 × List (Tag Other) × BlobSource Other) :=
  if s.stop ∧ s.queue.length = 0 then some (.endOfStream, [], s)
  else
    (workLoop c (pickSmaller noutputItems s.queue.length) s).map fun (bytes, tags, next) =>
      (.produced bytes, tags, next)

end BlobSource

end GrCcsds.Messages
