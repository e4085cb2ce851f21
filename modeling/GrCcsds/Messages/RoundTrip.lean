import GrCcsds.Messages.Alignment
import GrCcsds.Messages.Sink
import Mathlib.Algebra.GroupWithZero.Nat

/-! # From a sink to a source

However a stream is split into calls, a sink publishes its segments and keeps
the rest. A source that receives the published messages between any calls of
`work` outputs the segments again.
-/

namespace GrCcsds.Messages

open Foundation Utils

variable {Other Float α : Type}

namespace Sink

/-- A sink in a flow graph, with the number of items it has consumed. -/
structure Session (Other Float α : Type) where
  sink : Sink Other Float α
  consumed : Nat

namespace Session

def initial (buffer : Nat → α) : Session Other Float α where
  sink := .initial buffer
  consumed := 0

/-- A call of `work` with the next items of a stream. -/
def step (work : (Nat → α) → Nat → Sink Other Float α → Option (Sink Other Float α))
    (stream : Nat → α) (s : Session Other Float α) (noutputItems : Nat) :
    Option (Session Other Float α) :=
  (work (fun i => stream (s.consumed + i)) noutputItems s.sink).map fun sink =>
    { sink, consumed := s.consumed + noutputItems }

/-- The sink has cut the items that it has consumed. -/
def Cuts (len : Nat) (pack : List α → Data Float) (stream : Nat → α)
    (s : Session Other Float α) : Prop :=
  ∃ segments, s.sink.Cut len pack stream segments ∧
    segments * len + s.sink.bufferCount = s.consumed

theorem cuts_initial {len : Nat} (hlen : 1 ≤ len) (pack : List α → Data Float)
    (stream buffer : Nat → α) : (initial buffer : Session Other Float α).Cuts len pack stream :=
  ⟨0, cut_initial hlen pack stream buffer, by simp [initial, Sink.initial]⟩

/-- A call whose loop takes all of its input. -/
theorem Cuts.step {len : Nat} {pack : List α → Data Float} {stream : Nat → α}
    {work : (Nat → α) → Nat → Sink Other Float α → Option (Sink Other Float α)}
    {s : Session Other Float α} {noutputItems segments : Nat} {last : Sink Other Float α}
    (hwork : work (fun i => stream (s.consumed + i)) noutputItems s.sink = some last)
    (hlast : last.Cut len pack stream segments)
    (hend : segments * len + last.bufferCount = s.consumed + noutputItems) :
    ∃ next, s.step work stream noutputItems = some next ∧ next.Cuts len pack stream ∧
      next.consumed = s.consumed + noutputItems := by
  have hstep : s.step work stream noutputItems =
      some { sink := last, consumed := s.consumed + noutputItems } := by
    rw [Session.step, hwork]
    rfl
  exact ⟨_, hstep, ⟨segments, hlast, hend⟩, rfl⟩

theorem exists_step_blob {len : Nat} {stream : Nat → UInt8} {s : Session Other Float UInt8}
    (hcuts : s.Cuts len Data.blob stream) (noutputItems : Nat) :
    ∃ next, s.step (BlobSink.work len) stream noutputItems = some next ∧
      next.Cuts len Data.blob stream ∧ next.consumed = s.consumed + noutputItems := by
  obtain ⟨segments, hcut, hconsumed⟩ := hcuts
  obtain ⟨last, segments', hloop, hlast, hend⟩ := BlobSink.workLoop_spec
    (fun i => stream (s.consumed + i)) hcut (Nat.zero_le noutputItems)
    (Nat.le_of_eq (Nat.zero_add noutputItems).symm)
    (fun i _ => by rw [Nat.zero_add, hconsumed])
  rw [hconsumed] at hend
  exact Cuts.step hloop hlast hend

theorem exists_step_softbit {len : Nat} {stream : Nat → Float} {s : Session Other Float Float}
    (hcuts : s.Cuts len Data.f32vector stream) (noutputItems : Nat) :
    ∃ next, s.step (SoftbitSink.work len) stream noutputItems = some next ∧
      next.Cuts len Data.f32vector stream ∧ next.consumed = s.consumed + noutputItems := by
  obtain ⟨segments, hcut, hconsumed⟩ := hcuts
  obtain ⟨last, segments', hloop, hlast, hend⟩ := SoftbitSink.workLoop_spec
    (fun i => stream (s.consumed + i)) hcut (Nat.le_refl noutputItems)
    (Nat.le_refl noutputItems) (fun i _ => by rw [Nat.sub_self, Nat.zero_add, hconsumed])
  rw [hconsumed] at hend
  exact Cuts.step hloop hlast hend

/-- What a sink has published and what it keeps after some items. -/
structure Exact (len : Nat) (pack : List α → Data Float) (stream : Nat → α) (taken : Nat)
    (s : Sink Other Float α) : Prop where
  published : s.published =
    (List.range (taken / len)).map fun k => .pair (some []) (pack (segment len stream k))
  bufferCount : s.bufferCount = taken % len
  kept : ∀ i < taken % len, s.buffer i = stream (taken / len * len + i)

theorem Cuts.exact {len : Nat} {pack : List α → Data Float} {stream : Nat → α}
    {s : Session Other Float α} (hcuts : s.Cuts len pack stream) :
    Exact len pack stream s.consumed s.sink := by
  obtain ⟨segments, hcut, hconsumed⟩ := hcuts
  have hlen : 0 < len := Nat.zero_lt_of_lt hcut.bufferCount_lt
  have hdiv : s.consumed / len = segments := by
    rw [← hconsumed, Nat.mul_comm, Nat.mul_add_div hlen, Nat.div_eq_of_lt hcut.bufferCount_lt,
      Nat.add_zero]
  have hmod : s.consumed % len = s.sink.bufferCount := by
    rw [← hconsumed, Nat.mul_comm, Nat.mul_add_mod, Nat.mod_eq_of_lt hcut.bufferCount_lt]
  constructor
  · rw [hdiv, hcut.published]
  · exact hmod.symm
  · rw [hdiv, hmod]
    exact hcut.kept

section Runs

variable {len : Nat} {pack : List α → Data Float} {stream : Nat → α}
  {work : (Nat → α) → Nat → Sink Other Float α → Option (Sink Other Float α)}

/-- A run takes all the items of its calls. -/
theorem run_of_steps
    (hstep : ∀ (s : Session Other Float α) (noutputItems : Nat), s.Cuts len pack stream →
      ∃ next, s.step work stream noutputItems = some next ∧ next.Cuts len pack stream ∧
        next.consumed = s.consumed + noutputItems)
    (sizes : List Nat) {s : Session Other Float α} (hcuts : s.Cuts len pack stream) :
    ∃ last, Transition.run (Session.step work stream) s sizes = some last ∧
      last.Cuts len pack stream ∧ last.consumed = s.consumed + sizes.sum := by
  induction sizes generalizing s with
  | nil => exact ⟨s, rfl, hcuts, by simp⟩
  | cons noutputItems rest ih =>
      obtain ⟨next, hnext, hcutsNext, hconsumed⟩ := hstep s noutputItems hcuts
      obtain ⟨last, hlast, hcutsLast, htotal⟩ := ih hcutsNext
      refine ⟨last, ?_, hcutsLast, ?_⟩
      · rw [Transition.run, hnext]
        exact hlast
      · rw [htotal, hconsumed, List.sum_cons, Nat.add_assoc]

theorem exact_of_steps (hlen : 1 ≤ len)
    (hstep : ∀ (s : Session Other Float α) (noutputItems : Nat), s.Cuts len pack stream →
      ∃ next, s.step work stream noutputItems = some next ∧ next.Cuts len pack stream ∧
        next.consumed = s.consumed + noutputItems)
    (buffer : Nat → α) (sizes : List Nat) :
    ∃ s, Transition.run (Session.step work stream) (initial buffer) sizes = some s ∧
      Exact len pack stream sizes.sum s.sink := by
  obtain ⟨last, hlast, hcuts, hconsumed⟩ :=
    run_of_steps hstep sizes (cuts_initial hlen pack stream buffer)
  refine ⟨last, hlast, ?_⟩
  have hexact := hcuts.exact
  rwa [hconsumed, show (initial buffer : Session Other Float α).consumed = 0 from rfl,
    Nat.zero_add] at hexact

end Runs

end Session
end Sink

section Delivery

variable {len : Nat} {pack : List α → Data Float} {vector : Data Float → Option (List α)}

/-- The messages of a sink pass the checks of the source of the same length. -/
theorem accepted_published (hvector : ∀ items, vector (pack items) = some items)
    {segments : List (List α)} (hlengths : ∀ items ∈ segments, items.length = len)
    {tail : List (Message Other Float)} (htail : tail = [] ∨ tail = [.eof]) :
    accepted len vector ((segments.map fun items => .pair (some []) (pack items)) ++ tail) =
      segments.map fun items => ([], items) := by
  induction segments with
  | nil => rcases htail with rfl | rfl <;> rfl
  | cons items rest ih =>
      have hrest := ih fun items hitems => hlengths items (List.mem_cons_of_mem _ hitems)
      have hlength := hlengths items List.mem_cons_self
      rw [List.map_cons, List.map_cons, List.cons_append, accepted_cons, ← hrest]
      simp [accepted, receive, hvector, hlength, Message.isEof]

theorem flatMap_segment (len : Nat) (stream : Nat → α) (count : Nat) :
    (List.range count).flatMap (Sink.segment len stream) =
      (List.range (count * len)).map stream := by
  induction count with
  | zero => simp
  | succ count ih =>
      rw [List.range_succ, List.flatMap_append, ih, Nat.succ_mul, List.range_add, List.map_append,
        List.map_map]
      simp [Sink.segment, Function.comp_def]

/-- The accepted items of the messages of a sink, with EOF or without. -/
theorem payloads_accepted_published (hvector : ∀ items, vector (pack items) = some items)
    {stream : Nat → α} {taken : Nat} {s : Sink Other Float α}
    (hexact : Sink.Session.Exact len pack stream taken s)
    {messages : List (Message Other Float)}
    (hmessages : messages = s.published ∨ messages = s.stop.published) :
    payloads (accepted len vector messages) =
      (List.range (taken / len * len)).map stream := by
  obtain ⟨tail, htail, rfl⟩ : ∃ tail, (tail = [] ∨ tail = [.eof]) ∧
      messages = s.published ++ tail := by
    rcases hmessages with rfl | rfl
    · exact ⟨[], Or.inl rfl, (List.append_nil _).symm⟩
    · exact ⟨[.eof], Or.inr rfl, rfl⟩
  have hsegments : s.published = ((List.range (taken / len)).map (Sink.segment len stream)).map
      fun items => .pair (some []) (pack items) := by
    rw [hexact.published, List.map_map]
    rfl
  rw [hsegments, accepted_published hvector ?_ htail]
  · rw [← flatMap_segment, payloads, List.map_map, List.flatMap_map]
    rfl
  · intro items hitems
    obtain ⟨k, -, rfl⟩ := List.mem_map.mp hitems
    simp [Sink.segment]

/-- The output and then the queue are the given items, and a call of `work` with
enough space outputs them all. -/
structure Reproduces (items : List α) (s : Source.Session Other α)
    (work : Nat → Option (Source.Session Other α)) : Prop where
  conserved : s.out ++ s.source.queue = items
  drained : ∀ noutputItems, s.source.queue.length ≤ noutputItems →
    ∃ next, work noutputItems = some next ∧ next.out = items

theorem softbit_reproduces (frameLen : Nat) (events : List (Event Other Float)) :
    ∃ s, Transition.run (SoftbitSource.step frameLen) .initial events = some s ∧
      Reproduces
        (payloads (accepted frameLen Data.f32vectorData (events.filterMap Event.delivered))) s
        fun noutputItems =>
          SoftbitSource.step frameLen s (.work noutputItems : Event Other Float) := by
  have hsource : (SoftbitSource.step frameLen : _ → Event Other Float → _) =
      fun (s : Source.Session Other Float) => s.step frameLen Data.f32vectorData :=
    funext₂ (SoftbitSource.step_eq frameLen)
  rw [hsource]
  have hstep : ∀ (s : Source.Session Other Float) (event : Event Other Float), s.Conserved →
      ∃ next, s.step frameLen Data.f32vectorData event = some next ∧ next.Conserved :=
    fun _ event h => Source.Session.exists_step h event
  obtain ⟨s, hrun, hconserved⟩ :=
    Transition.exists_run hstep events Source.Session.conserved_initial
  have haccepted : s.accepted =
      accepted frameLen Data.f32vectorData (events.filterMap Event.delivered) :=
    Source.Session.accepted_of_run hrun
  refine ⟨s, hrun, haccepted ▸ hconserved.items, ?_⟩
  intro noutputItems hspace
  obtain ⟨next, hnext, hconservedNext⟩ := hstep s (.work noutputItems) hconserved
  exact ⟨next, hnext, haccepted ▸ Source.Session.out_of_drained hconservedNext hspace hnext⟩

theorem blob_reproduces (c : BlobConfig) (events : List (Event Other Float)) :
    ∃ s, Transition.run (BlobSource.Session.step c) .initial events = some s ∧
      Reproduces
        (payloads (accepted c.blobLen Data.blobData (events.filterMap Event.delivered))) s.plain
        fun noutputItems =>
          (s.step c (.work noutputItems : Event Other Float)).map BlobSource.Session.plain := by
  have hstep : ∀ (s : BlobSource.Session Other) (event : Event Other Float), s.Aligned c →
      ∃ next, s.step c event = some next ∧ next.Aligned c :=
    fun _ event h => BlobSource.Session.exists_step h event
  obtain ⟨s, hrun, haligned⟩ :=
    Transition.exists_run hstep events BlobSource.Session.aligned_initial
  have haccepted : s.accepted =
      accepted c.blobLen Data.blobData (events.filterMap Event.delivered) :=
    Source.Session.accepted_of_run
      (Transition.run_map (fun _ _ _ h => BlobSource.Session.step_plain h) hrun)
  refine ⟨s, hrun, haccepted ▸ haligned.conserved.items, ?_⟩
  intro noutputItems hspace
  obtain ⟨next, hnext, halignedNext⟩ := hstep s (.work noutputItems) haligned
  refine ⟨next.plain, ?_, haccepted ▸ Source.Session.out_of_drained
    halignedNext.conserved hspace (BlobSource.Session.step_plain hnext)⟩
  rw [hnext]
  rfl

end Delivery

/-- However a stream is split into calls, both sinks publish its complete
segments and keep the rest. A source that receives the published messages, with
the EOF of the sink or without, reproduces the items of the segments in any
interleaving with calls of `work`. -/
theorem sinks_cut_and_sources_join {len : Nat} (hlen : 1 ≤ len) (lengthTagName : String)
    (sizes : List Nat) (events : List (Event Other Float)) :
    (∀ stream buffer : Nat → UInt8, ∃ s,
      Transition.run (Sink.Session.step (BlobSink.work len) stream)
        (.initial buffer : Sink.Session Other Float UInt8) sizes = some s ∧
      Sink.Session.Exact len Data.blob stream sizes.sum s.sink ∧
      (events.filterMap Event.delivered = s.sink.published ∨
          events.filterMap Event.delivered = s.sink.stop.published →
        ∃ t, Transition.run (BlobSource.Session.step ⟨len, lengthTagName⟩) .initial events =
            some t ∧
          Reproduces ((List.range (sizes.sum / len * len)).map stream) t.plain
            fun noutputItems => (t.step ⟨len, lengthTagName⟩
              (.work noutputItems : Event Other Float)).map BlobSource.Session.plain)) ∧
    (∀ stream buffer : Nat → Float, ∃ s,
      Transition.run (Sink.Session.step (SoftbitSink.work len) stream)
        (.initial buffer : Sink.Session Other Float Float) sizes = some s ∧
      Sink.Session.Exact len Data.f32vector stream sizes.sum s.sink ∧
      (events.filterMap Event.delivered = s.sink.published ∨
          events.filterMap Event.delivered = s.sink.stop.published →
        ∃ t, Transition.run (SoftbitSource.step len) .initial events = some t ∧
          Reproduces ((List.range (sizes.sum / len * len)).map stream) t
            fun noutputItems =>
              SoftbitSource.step len t (.work noutputItems : Event Other Float))) := by
  constructor
  · intro stream buffer
    obtain ⟨s, hrun, hexact⟩ := Sink.Session.exact_of_steps hlen
      (fun _ noutputItems hcuts => Sink.Session.exists_step_blob hcuts noutputItems) buffer sizes
    refine ⟨s, hrun, hexact, ?_⟩
    intro hdelivered
    have hitems : payloads (accepted len Data.blobData (events.filterMap Event.delivered)) = _ :=
      payloads_accepted_published (fun _ => rfl) hexact hdelivered
    rw [← hitems]
    exact blob_reproduces ⟨len, lengthTagName⟩ events
  · intro stream buffer
    obtain ⟨s, hrun, hexact⟩ := Sink.Session.exact_of_steps hlen
      (fun _ noutputItems hcuts => Sink.Session.exists_step_softbit hcuts noutputItems) buffer
      sizes
    refine ⟨s, hrun, hexact, ?_⟩
    intro hdelivered
    have hitems :
        payloads (accepted len Data.f32vectorData (events.filterMap Event.delivered)) = _ :=
      payloads_accepted_published (fun _ => rfl) hexact hdelivered
    rw [← hitems]
    exact softbit_reproduces len events

theorem sinks_cut_and_sources_join_pairs :
    ∃ (s : Sink.Session Unit Unit UInt8) (t : BlobSource.Session Unit),
      Transition.run (Sink.Session.step (BlobSink.work 2) UInt8.ofNat) (.initial fun _ => 0)
        [1, 0, 4] = some s ∧
      s.sink.published = [.pair (some []) (.blob [0, 1]), .pair (some []) (.blob [2, 3])] ∧
      Transition.run (BlobSource.Session.step ⟨2, "packet_len"⟩) .initial
        [.message (.pair (some []) (.blob [0, 1])), .work 1,
          .message (.pair (some []) (.blob [2, 3])), .message (.eof : Message Unit Unit),
          .work 7] = some t ∧
      t.plain.out ++ t.plain.source.queue = [0, 1, 2, 3] := by
  obtain ⟨hblob, -⟩ := sinks_cut_and_sources_join (show 1 ≤ 2 by decide) "packet_len" [1, 0, 4]
    [.message (.pair (some []) (.blob [0, 1])), .work 1,
      .message (.pair (some []) (.blob [2, 3])), .message (.eof : Message Unit Unit), .work 7]
  obtain ⟨s, hrun, hexact, hsource⟩ := hblob UInt8.ofNat fun _ => 0
  have hpublished : s.sink.published =
      [.pair (some []) (.blob [0, 1]), .pair (some []) (.blob [2, 3])] := hexact.published
  have hstop : s.sink.stop.published =
      [.pair (some []) (.blob [0, 1]), .pair (some []) (.blob [2, 3]), .eof] := by
    rw [Sink.stop, hpublished]
    rfl
  obtain ⟨t, ht, hreproduces⟩ := hsource (Or.inr hstop.symm)
  exact ⟨s, t, hrun, hpublished, ht, hreproduces.conserved⟩

end GrCcsds.Messages
