import GrCcsds.Messages.Source

/-! # What a message source delivers

A source is run by deliveries of messages and calls of `work` in any order. The
items that it has output and then the items in its queue are the items of the
accepted messages, and the end of the stream is reported when nothing is left.
-/

namespace GrCcsds.Messages

open Foundation Utils

variable {Other Float α : Type}

/-- What happens at a message source. -/
inductive Event (Other Float : Type) where
  | message (msg : Message Other Float)
  | work (noutputItems : Nat)

def Event.delivered : Event Other Float → Option (Message Other Float)
  | .message msg => some msg
  | .work _ => none

def Message.isEof : Message Other Float → Bool
  | .eof => true
  | _ => false

/-- The messages that a source accepts of those that are delivered: those
before EOF that pass the checks. -/
def accepted (len : Nat) (vector : Data Float → Option (List α)) :
    List (Message Other Float) → List (Header Other × List α)
  | [] => []
  | .eof :: _ => []
  | msg :: rest => (receive len vector msg).toList ++ accepted len vector rest

theorem accepted_cons (len : Nat) (vector : Data Float → Option (List α))
    (msg : Message Other Float) (rest : List (Message Other Float)) :
    accepted len vector (msg :: rest) =
      accepted len vector [msg] ++ if msg.isEof then [] else accepted len vector rest := by
  cases msg <;> simp [accepted, Message.isEof]

/-- All items that some calls of `work` have output. -/
def outputOf (results : List (WorkResult α)) : List α := results.flatMap WorkResult.items

/-- The items of accepted messages. -/
def payloads (messages : List (Header Other × List α)) : List α := messages.flatMap Prod.snd

@[simp] theorem outputOf_append (first second : List (WorkResult α)) :
    outputOf (first ++ second) = outputOf first ++ outputOf second :=
  List.flatMap_append

@[simp] theorem outputOf_singleton (result : WorkResult α) :
    outputOf [result] = result.items := List.flatMap_singleton _ _

@[simp] theorem payloads_append (first second : List (Header Other × List α)) :
    payloads (first ++ second) = payloads first ++ payloads second :=
  List.flatMap_append

/-- An entry of a log with one more entry, and the entries before it. -/
theorem getElem?_concat_cases {β : Type} {log : List β} {last entry : β} {i : Nat}
    (hentry : (log ++ [last])[i]? = some entry) :
    log[i]? = some entry ∧ (log ++ [last]).take i = log.take i ∨
      entry = last ∧ (log ++ [last]).take i = log := by
  rcases Nat.lt_or_ge i log.length with hbefore | hlast
  · rw [List.getElem?_append_left hbefore] at hentry
    exact Or.inl ⟨hentry, List.take_append_of_le_length (Nat.le_of_lt hbefore)⟩
  · have hlt := (List.getElem?_eq_some_iff.mp hentry).1
    rw [List.length_append, List.length_singleton] at hlt
    obtain rfl : i = log.length := Nat.le_antisymm (Nat.le_of_lt_succ hlt) hlast
    rw [List.getElem?_append_right (Nat.le_refl _)] at hentry
    exact Or.inr ⟨(List.mem_singleton.mp (List.mem_of_getElem? hentry)), List.take_left⟩

/-- A call outputs a part of the whole output. -/
theorem length_output_le {results : List (WorkResult α)} {i : Nat} {result : WorkResult α}
    (hresult : results[i]? = some result) :
    (outputOf (results.take i)).length + result.items.length ≤ (outputOf results).length := by
  obtain ⟨hi, rfl⟩ := List.getElem?_eq_some_iff.mp hresult
  have hsplit : results = results.take i ++ [results[i]] ++ results.drop (i + 1) := by
    rw [List.append_assoc, List.singleton_append, ← List.drop_eq_getElem_cons hi,
      List.take_append_drop]
  conv_rhs => rw [hsplit]
  simp only [outputOf_append, outputOf_singleton, List.length_append]
  exact Nat.le_add_right _ _

theorem length_of_receive {len : Nat} {vector : Data Float → Option (List α)}
    {msg : Message Other Float} {header : Header Other} {items : List α}
    (hreceive : receive len vector msg = some (header, items)) : items.length = len := by
  unfold receive at hreceive
  split at hreceive
  next =>
    split at hreceive
    next =>
      split at hreceive
      next => cases hreceive
      next hlength =>
        cases hreceive
        exact Decidable.not_not.mp hlength
    next => cases hreceive
  next => cases hreceive

theorem length_of_mem_accepted {len : Nat} {vector : Data Float → Option (List α)}
    {messages : List (Message Other Float)} {frame : Header Other × List α}
    (hframe : frame ∈ accepted len vector messages) : frame.2.length = len := by
  induction messages with
  | nil => cases hframe
  | cons msg rest ih =>
      rw [accepted_cons, List.mem_append] at hframe
      rcases hframe with hfirst | hrest
      · cases msg with
        | eof => cases hfirst
        | notPair => cases hfirst
        | pair header data =>
            simp only [accepted, List.append_nil, Option.mem_toList] at hfirst
            exact length_of_receive hfirst
      · split at hrest
        next => cases hrest
        next => exact ih hrest

theorem length_payloads {len : Nat} {messages : List (Header Other × List α)}
    (hlengths : ∀ frame ∈ messages, frame.2.length = len) :
    (payloads messages).length = messages.length * len := by
  induction messages with
  | nil => simp [payloads]
  | cons frame rest ih =>
      have hrest := ih fun frame hframe => hlengths frame (List.mem_cons_of_mem _ hframe)
      have hfirst := hlengths frame List.mem_cons_self
      rw [List.length_cons, Nat.succ_mul, ← hrest, Nat.add_comm]
      exact List.length_append.trans (congrArg (· + _) hfirst)

namespace Source

theorem processMessage_queue (len : Nat) (vector : Data Float → Option (List α)) (s : Source α)
    (msg : Message Other Float) :
    (s.processMessage len vector msg).queue =
      s.queue ++ payloads (if s.stop then [] else accepted len vector [msg]) := by
  unfold processMessage
  split
  next hstop => simp [payloads]
  next hstop =>
    cases msg with
    | eof => simp [accepted, payloads]
    | notPair => simp [accepted, receive, payloads]
    | pair header data =>
        simp only [accepted, List.append_nil]
        split
        next hreceive => simp [hreceive, payloads]
        next hreceive => simp [hreceive, payloads]

theorem processMessage_stop (len : Nat) (vector : Data Float → Option (List α)) (s : Source α)
    (msg : Message Other Float) :
    (s.processMessage len vector msg).stop = (s.stop || msg.isEof) := by
  unfold processMessage
  split
  next hstop => simp [hstop]
  next hstop =>
    cases msg with
    | eof => simp [Message.isEof]
    | notPair => simp [receive, Message.isEof]
    | pair header data =>
        dsimp only
        split
        next => simp [Message.isEof]
        next => simp [Message.isEof]

/-- The loop moves the beginning of the queue to the output. -/
theorem workLoop_eq {count : Nat} {s : Source α} (hcount : count ≤ s.queue.length) :
    workLoop count s = some (s.queue.take count, { s with queue := s.queue.drop count }) := by
  induction count generalizing s with
  | zero => rfl
  | succ count ih =>
      obtain ⟨queue, stop⟩ := s
      cases queue with
      | nil => cases hcount
      | cons item rest =>
          have hrest := ih (s := ⟨rest, stop⟩) (Nat.le_of_succ_le_succ hcount)
          simp only [workLoop, iteration, Option.bind_some, hrest, Option.map_some,
            List.take_succ_cons, List.drop_succ_cons]

/-- A call of `work` outputs the beginning of the queue. -/
theorem work_eq (s : Source α) (noutputItems : Nat) :
    s.work noutputItems =
      if s.stop ∧ s.queue.length = 0 then some (.endOfStream, s)
      else some (.produced (s.queue.take noutputItems),
        { s with queue := s.queue.drop noutputItems }) := by
  unfold work
  split
  next => rfl
  next =>
    rw [workLoop_eq (by simp), pickSmaller_eq_min, Option.map_some]
    rcases Nat.le_total noutputItems s.queue.length with hle | hle
    · rw [Nat.min_eq_left hle]
    · rw [Nat.min_eq_right hle, List.take_of_length_le hle, List.drop_of_length_le hle,
        List.take_length, List.drop_length]

theorem stop_of_work {s next : Source α} {noutputItems : Nat} {result : WorkResult α}
    (hwork : s.work noutputItems = some (result, next)) : next.stop = s.stop := by
  rw [work_eq] at hwork
  split at hwork
  next =>
    cases hwork
    rfl
  next =>
    cases hwork
    rfl

/-- A source with what it has accepted and output so far. -/
structure Session (Other α : Type) where
  source : Source α
  accepted : List (Header Other × List α)
  results : List (WorkResult α)

namespace Session

variable (len : Nat) (vector : Data Float → Option (List α))

def initial : Session Other α where
  source := .initial
  accepted := []
  results := []

def step (s : Session Other α) : Event Other Float → Option (Session Other α)
  | .message msg =>
    some
      { s with
        source := s.source.processMessage len vector msg
        accepted := s.accepted ++
          if s.source.stop then [] else Messages.accepted len vector [msg] }
  | .work noutputItems =>
    (s.source.work noutputItems).map fun (result, next) =>
      { s with source := next, results := s.results ++ [result] }

def out (s : Session Other α) : List α := outputOf s.results

/-- Nothing is lost, and the end of the stream comes last. -/
structure Conserved (s : Session Other α) : Prop where
  items : s.out ++ s.source.queue = payloads s.accepted
  ended : .endOfStream ∈ s.results → s.source.stop = true ∧ s.source.queue = []
  complete : ∀ i : Nat, s.results[i]? = some .endOfStream →
    outputOf (s.results.take i) = payloads s.accepted

variable {len vector} {s next : Session Other α}

theorem conserved_initial : (initial : Session Other α).Conserved where
  items := rfl
  ended := fun hmem => nomatch hmem
  complete := fun _ h => nomatch h

theorem Conserved.message (hconserved : s.Conserved) (msg : Message Other Float)
    (hstep : s.step len vector (.message msg) = some next) : next.Conserved := by
  cases hstep
  refine ⟨?_, ?_, ?_⟩
  · rw [processMessage_queue, payloads_append, ← hconserved.items, List.append_assoc]
    rfl
  · intro hmem
    obtain ⟨hstop, hqueue⟩ := hconserved.ended hmem
    simp only [processMessage, hstop, if_true, hqueue, and_self]
  · intro i hi
    have hstop := (hconserved.ended (List.mem_of_getElem? hi)).1
    simpa [hstop] using hconserved.complete i hi

theorem Conserved.work (hconserved : s.Conserved) (noutputItems : Nat) :
    ∃ next, s.step len vector (.work noutputItems : Event Other Float) = some next ∧
      next.Conserved := by
  have hitems := hconserved.items
  by_cases hend : s.source.stop = true ∧ s.source.queue.length = 0
  · have hqueue := List.length_eq_zero_iff.mp hend.2
    rw [hqueue, List.append_nil] at hitems
    refine ⟨{ s with results := s.results ++ [.endOfStream] }, ?_, ?_, ?_, ?_⟩
    · rw [step, work_eq, if_pos hend]
      rfl
    · simpa [out, hqueue] using hitems
    · exact fun _ => ⟨hend.1, hqueue⟩
    · intro i hi
      rcases getElem?_concat_cases hi with ⟨hbefore, htake⟩ | ⟨-, htake⟩
      · rw [htake]
        exact hconserved.complete i hbefore
      · rw [htake]
        exact hitems
  · refine ⟨{ s with
        source := { s.source with queue := s.source.queue.drop noutputItems }
        results := s.results ++ [.produced (s.source.queue.take noutputItems)] },
      ?_, ?_, ?_, ?_⟩
    · rw [step, work_eq, if_neg hend]
      rfl
    · simpa [out] using hitems
    · intro hmem
      rcases List.mem_append.mp hmem with hbefore | hlast
      · obtain ⟨hstop, hqueue⟩ := hconserved.ended hbefore
        exact absurd ⟨hstop, List.length_eq_zero_iff.mpr hqueue⟩ hend
      · cases List.mem_singleton.mp hlast
    · intro i hi
      rcases getElem?_concat_cases hi with ⟨hbefore, htake⟩ | ⟨hlast, -⟩
      · rw [htake]
        exact hconserved.complete i hbefore
      · cases hlast

theorem exists_step (hconserved : s.Conserved) (event : Event Other Float) :
    ∃ next, s.step len vector event = some next ∧ next.Conserved := by
  cases event with
  | message msg => exact ⟨_, rfl, hconserved.message msg rfl⟩
  | work noutputItems => exact hconserved.work noutputItems

/-- A source accepts the messages before EOF that pass the checks. -/
theorem accepted_of_run {events : List (Event Other Float)}
    (hrun : Transition.run (step len vector) s events = some next) :
    next.accepted = s.accepted ++
      if s.source.stop then [] else
        Messages.accepted len vector (events.filterMap Event.delivered) := by
  induction events generalizing s with
  | nil =>
      cases hrun
      simp [Messages.accepted]
  | cons event rest ih =>
      obtain ⟨middle, hstep, hrest⟩ := Option.bind_eq_some_iff.mp hrun
      rw [ih hrest]
      cases event with
      | message msg =>
          cases hstep
          have hdelivered : (Event.message msg :: rest).filterMap Event.delivered =
              msg :: rest.filterMap Event.delivered := rfl
          rw [processMessage_stop, hdelivered,
            accepted_cons len vector msg (rest.filterMap Event.delivered)]
          cases s.source.stop <;> cases msg.isEof <;> simp
      | work noutputItems =>
          obtain ⟨⟨result, source⟩, hwork, rfl⟩ := Option.map_eq_some_iff.mp hstep
          rw [List.filterMap_cons_none rfl, stop_of_work hwork]

/-- A call of `work` with enough space outputs the rest. -/
theorem out_of_drained {noutputItems : Nat} (hconserved : next.Conserved)
    (hspace : s.source.queue.length ≤ noutputItems)
    (hstep : s.step len vector (.work noutputItems : Event Other Float) = some next) :
    next.out = payloads s.accepted := by
  obtain ⟨⟨result, source⟩, hwork, rfl⟩ := Option.map_eq_some_iff.mp hstep
  have hqueue : source.queue = [] := by
    rw [work_eq] at hwork
    split at hwork
    next hend =>
      cases hwork
      exact List.length_eq_zero_iff.mp hend.2
    next =>
      cases hwork
      exact List.drop_of_length_le hspace
  have hitems := hconserved.items
  rwa [hqueue, List.append_nil] at hitems

end Session
end Source

/-- The source of soft bits in a flow graph. -/
def SoftbitSource.step (frameLen : Nat) (s : Source.Session Other Float) :
    Event Other Float → Option (Source.Session Other Float)
  | .message msg =>
    some
      { s with
        source := processMessage frameLen s.source msg
        accepted := s.accepted ++
          if s.source.stop then [] else accepted frameLen Data.f32vectorData [msg] }
  | .work noutputItems =>
    (work s.source noutputItems).map fun (result, next) =>
      { s with source := next, results := s.results ++ [result] }

theorem SoftbitSource.step_eq (frameLen : Nat) (s : Source.Session Other Float)
    (event : Event Other Float) :
    step frameLen s event = s.step frameLen Data.f32vectorData event := by
  cases event <;> rfl

end GrCcsds.Messages
