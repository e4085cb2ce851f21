import Mathlib.Algebra.GroupWithZero.Nat
import Mathlib.Data.List.Flatten
import Mathlib.Logic.Relation
import Mathlib.Tactic.Common

/-! # Pipelines of message handlers

Components in a row, each with a queue of messages in front of it. Handlers are
called in any order, and messages arrive at any time. What comes out are the
messages that have arrived, handled one after the other, and calls of handlers
come to an end.
-/

namespace Foundation.Pipeline

/-- A message handler with what it does to the messages that it accepts, in the states that it
can come to. A handler that does not return handles nothing. -/
structure Component (Message : Type) where
  State : Type
  initial : State
  Handles : State → Message → State → List Message → Prop
  Accepts : Message → Prop
  Inv : State → Prop
  output : Message → List Message
  inv_initial : Inv initial
  returns : ∀ {s msg}, Inv s → Accepts msg → ∃ next, Handles s msg next (output msg)
  handled : ∀ {s msg next out}, Inv s → Accepts msg → Handles s msg next out →
    out = output msg ∧ Inv next

/-- A component with its queue. -/
structure Stage (Message : Type) where
  component : Component Message
  state : component.State
  inbox : List Message

variable {Message : Type}

def Stage.start (component : Component Message) : Stage Message where
  component := component
  state := component.initial
  inbox := []

/-- Every component accepts the message or what becomes of it. -/
def Fits : List (Component Message) → Message → Prop
  | [], _ => True
  | component :: rest, msg => component.Accepts msg ∧ ∀ next ∈ component.output msg, Fits rest next

/-- What becomes of a message. -/
def through : List (Component Message) → Message → List Message
  | [], msg => [msg]
  | component :: rest, msg => (component.output msg).flatMap (through rest)

/-- The number of calls that a message causes. -/
def calls : List (Component Message) → Message → Nat
  | [], _ => 0
  | component :: rest, msg => 1 + ((component.output msg).map (calls rest)).sum

/-- Messages are sent to the first of the stages, or leave the pipeline. -/
def push (msgs : List Message) : List (Stage Message) → List (Stage Message) × List Message
  | [] => ([], msgs)
  | stage :: rest => ({ stage with inbox := stage.inbox ++ msgs } :: rest, [])

/-- A call of one of the handlers, with the messages that leave the pipeline. -/
inductive Handle : List (Stage Message) → List (Stage Message) → List Message → Prop
  | here {component : Component Message} {state next : component.State} {msg : Message}
      {inbox out : List Message} {rest : List (Stage Message)}
      (handles : component.Handles state msg next out) :
      Handle (⟨component, state, msg :: inbox⟩ :: rest)
        (⟨component, next, inbox⟩ :: (push out rest).1) (push out rest).2
  | behind {stage : Stage Message} {rest next : List (Stage Message)} {out : List Message}
      (handle : Handle rest next out) : Handle (stage :: rest) (stage :: next) out

/-- A pipeline with all messages that have arrived and all that have left it. -/
structure Network (Message : Type) where
  stages : List (Stage Message)
  arrived : List Message
  out : List Message

def Network.start (components : List (Component Message)) : Network Message where
  stages := components.map Stage.start
  arrived := []
  out := []

def Network.arrive (n : Network Message) (msg : Message) : Network Message where
  stages := (push [msg] n.stages).1
  arrived := n.arrived ++ [msg]
  out := n.out ++ (push [msg] n.stages).2

inductive Network.Call : Network Message → Network Message → Prop
  | handle {n : Network Message} {stages : List (Stage Message)} {msgs : List Message}
      (handle : Handle n.stages stages msgs) : Call n ⟨stages, n.arrived, n.out ++ msgs⟩

/-- A message arrives, or a handler is called. -/
inductive Network.Step : Network Message → Network Message → Prop
  | arrive (n : Network Message) (msg : Message) : Step n (n.arrive msg)
  | call {n next : Network Message} (call : n.Call next) : Step n next

/-- No message waits. -/
def Network.Quiet (n : Network Message) : Prop := ∀ stage ∈ n.stages, stage.inbox = []

section Stages

def components (stages : List (Stage Message)) : List (Component Message) :=
  stages.map Stage.component

/-- Everything that waits is accepted. -/
def Sound : List (Stage Message) → Prop
  | [] => True
  | stage :: rest => stage.component.Inv stage.state ∧
      (∀ msg ∈ stage.inbox, Fits (stage.component :: components rest) msg) ∧ Sound rest

/-- What will become of the messages that wait, those of the last stages first. -/
def pending : List (Stage Message) → List Message
  | [] => []
  | stage :: rest => pending rest ++
      stage.inbox.flatMap (through (stage.component :: components rest))

/-- The number of calls that are still to come. -/
def remaining : List (Stage Message) → Nat
  | [] => 0
  | stage :: rest =>
    (stage.inbox.map (calls (stage.component :: components rest))).sum + remaining rest

variable {msgs : List Message} {stages : List (Stage Message)}

@[simp] theorem components_nil : components ([] : List (Stage Message)) = [] := rfl

@[simp] theorem components_cons (stage : Stage Message) (rest : List (Stage Message)) :
    components (stage :: rest) = stage.component :: components rest := rfl

@[simp] theorem components_push : components (push msgs stages).1 = components stages := by
  cases stages <;> rfl

theorem sound_push (hsound : Sound stages) (hfits : ∀ msg ∈ msgs, Fits (components stages) msg) :
    Sound (push msgs stages).1 := by
  cases stages with
  | nil => trivial
  | cons stage rest =>
      obtain ⟨hinv, hinbox, hrest⟩ := hsound
      refine ⟨hinv, ?_, hrest⟩
      intro msg hmsg
      rcases List.mem_append.mp hmsg with hold | hnew
      · exact hinbox msg hold
      · exact hfits msg hnew

theorem push_pending : (push msgs stages).2 ++ pending (push msgs stages).1 =
    pending stages ++ msgs.flatMap (through (components stages)) := by
  cases stages with
  | nil => simp [push, pending, through]
  | cons stage rest => simp [push, pending]

theorem remaining_push : remaining (push msgs stages).1 =
    remaining stages + (msgs.map (calls (components stages))).sum := by
  cases stages with
  | nil =>
      have hnone : msgs.map (calls []) = List.replicate msgs.length 0 :=
        List.map_eq_replicate_iff.mpr fun _ _ => rfl
      simp [push, remaining, hnone]
  | cons stage rest =>
      simp only [push, remaining, components_cons, List.map_append, List.sum_append]
      omega

/-- A call takes the first message of a queue and passes on what becomes of it. -/
theorem Handle.spec {next : List (Stage Message)} (hhandle : Handle stages next msgs)
    (hsound : Sound stages) :
    components next = components stages ∧ Sound next ∧ msgs ++ pending next = pending stages ∧
      remaining next + 1 = remaining stages := by
  induction hhandle with
  | @here component state next msg inbox out rest handles =>
      obtain ⟨hinv, hinbox, hrest⟩ := hsound
      obtain ⟨haccepts, hfits⟩ := hinbox msg List.mem_cons_self
      obtain ⟨rfl, hnext⟩ := component.handled hinv haccepts handles
      refine ⟨by simp, ⟨hnext, ?_, sound_push hrest hfits⟩, ?_, ?_⟩
      · intro other hother
        rw [components_push]
        exact hinbox other (List.mem_cons_of_mem _ hother)
      · rw [pending, pending, components_push, ← List.append_assoc, push_pending]
        simp [through]
      · rw [remaining, remaining, components_push, remaining_push]
        simp only [List.map_cons, List.sum_cons, calls]
        omega
  | behind handle ih =>
      obtain ⟨hinv, hinbox, hrest⟩ := hsound
      obtain ⟨hcomponents, hsound, hpending, hremaining⟩ := ih hrest
      refine ⟨by simp [hcomponents], ⟨hinv, ?_, hsound⟩, ?_, ?_⟩
      · rwa [hcomponents]
      · rw [pending, pending, hcomponents, ← List.append_assoc, hpending]
      · rw [remaining, remaining, hcomponents]
        omega

/-- As long as a message waits, a handler can be called. -/
theorem exists_handle (hsound : Sound stages) (hwaits : ∃ stage ∈ stages, stage.inbox ≠ []) :
    ∃ next msgs, Handle stages next msgs := by
  induction stages with
  | nil => simp at hwaits
  | cons stage rest ih =>
      obtain ⟨hinv, hinbox, hrest⟩ := hsound
      obtain ⟨component, state, inbox⟩ := stage
      cases inbox with
      | cons msg inbox =>
          obtain ⟨next, handles⟩ := component.returns hinv (hinbox msg List.mem_cons_self).1
          exact ⟨_, _, .here handles⟩
      | nil =>
          obtain ⟨next, msgs, handle⟩ := ih hrest (by simpa using hwaits)
          exact ⟨_, _, .behind handle⟩

theorem pending_of_quiet (hquiet : ∀ stage ∈ stages, stage.inbox = []) : pending stages = [] := by
  induction stages with
  | nil => rfl
  | cons stage rest ih =>
      rw [pending, hquiet stage List.mem_cons_self,
        ih fun other hother => hquiet other (List.mem_cons_of_mem _ hother)]
      rfl

end Stages

namespace Network

variable {first : List (Component Message)} {n next : Network Message}

/-- What has come out and what still waits are what has arrived. -/
structure Conserves (first : List (Component Message)) (n : Network Message) : Prop where
  components_eq : components n.stages = first
  sound : Sound n.stages
  conserved : n.out ++ pending n.stages = n.arrived.flatMap (through first)

theorem conserves_start : Conserves first (start first) := by
  constructor
  · simp [start, components, Function.comp_def, Stage.start]
  · induction first with
    | nil => trivial
    | cons component rest ih => exact ⟨component.inv_initial, by simp [Stage.start], ih⟩
  · rw [pending_of_quiet]
    · rfl
    · simp [start, Stage.start]

theorem Conserves.arrive (hn : n.Conserves first) {msg : Message} (hfits : Fits first msg) :
    (n.arrive msg).Conserves first := by
  obtain ⟨rfl, hsound, hconserved⟩ := hn
  refine ⟨components_push, sound_push hsound (by simpa using hfits), ?_⟩
  rw [Network.arrive, List.append_assoc, push_pending, ← List.append_assoc, hconserved,
    List.flatMap_append]

theorem Conserves.call (hn : n.Conserves first) (hcall : n.Call next) :
    next.Conserves first ∧ next.arrived = n.arrived ∧
      remaining next.stages + 1 = remaining n.stages := by
  obtain ⟨hcomponents, hsound, hconserved⟩ := hn
  cases hcall with
  | handle hhandle =>
      obtain ⟨hsame, hnext, hpending, hremaining⟩ := hhandle.spec hsound
      refine ⟨⟨hsame.trans hcomponents, hnext, ?_⟩, rfl, hremaining⟩
      rw [List.append_assoc, hpending, hconserved]

/-- The messages only grow. -/
theorem Step.arrived_prefix (hstep : n.Step next) : n.arrived <+: next.arrived := by
  cases hstep with
  | arrive msg => exact List.prefix_append _ _
  | call hcall =>
      cases hcall
      exact List.prefix_refl _

theorem reachable_of_calls {before : Network Message}
    (hreachable : Relation.ReflTransGen Step before n)
    (hcalls : Relation.ReflTransGen Call n next) :
    Relation.ReflTransGen Step before next :=
  hreachable.trans (Relation.ReflTransGen.mono (fun _ _ => Step.call) _ _ hcalls)

theorem conserves_of_reachable (hreachable : Relation.ReflTransGen Step (start first) n)
    (hfits : ∀ msg ∈ n.arrived, Fits first msg) : n.Conserves first := by
  induction hreachable with
  | refl => exact conserves_start
  | tail _ hstep ih =>
      have hn := ih fun msg hmsg => hfits msg (hstep.arrived_prefix.subset hmsg)
      cases hstep with
      | arrive msg => exact hn.arrive (hfits msg (by simp [Network.arrive]))
      | call hcall => exact (hn.call hcall).1

theorem Conserves.out_prefix (hn : n.Conserves first) :
    n.out <+: n.arrived.flatMap (through first) := ⟨_, hn.conserved⟩

theorem Conserves.out_eq (hn : n.Conserves first) (hquiet : n.Quiet) :
    n.out = n.arrived.flatMap (through first) := by
  rw [← hn.conserved, pending_of_quiet hquiet, List.append_nil]

theorem Conserves.exists_call (hn : n.Conserves first) (hwaits : ¬ n.Quiet) :
    ∃ next, n.Call next := by
  obtain ⟨stages, msgs, handle⟩ := exists_handle hn.sound (by simpa [Quiet] using hwaits)
  exact ⟨_, .handle handle⟩

/-- Without further messages, calls of handlers lead to a quiet pipeline. -/
theorem Conserves.settles (hn : n.Conserves first) :
    ∃ last, Relation.ReflTransGen Call n last ∧ last.Quiet ∧ last.arrived = n.arrived ∧
      last.Conserves first := by
  generalize hcount : remaining n.stages = count
  induction count generalizing n with
  | zero =>
      refine ⟨n, .refl, ?_, rfl, hn⟩
      by_contra hwaits
      obtain ⟨next, hcall⟩ := hn.exists_call hwaits
      have hcalls := (hn.call hcall).2.2
      omega
  | succ count ih =>
      by_cases hquiet : n.Quiet
      · exact ⟨n, .refl, hquiet, rfl, hn⟩
      · obtain ⟨next, hcall⟩ := hn.exists_call hquiet
        obtain ⟨hnext, harrived, hremaining⟩ := hn.call hcall
        obtain ⟨last, hlast, hend, hsame, hconserves⟩ := ih hnext (by omega)
        exact ⟨last, .head hcall hlast, hend, hsame.trans harrived, hconserves⟩

/-- The messages come out in their order, all of them when no message waits, and calls of
handlers lead to this end. -/
structure Delivers (n : Network Message) (msgs : List Message) : Prop where
  begins : n.out <+: msgs
  complete : n.Quiet → n.out = msgs
  settles : ∃ last, Relation.ReflTransGen Call n last ∧ last.Quiet ∧ last.arrived = n.arrived ∧
    last.out = msgs

/-- Messages that fit are delivered, in whatever order they arrive and handlers are called. -/
theorem delivers_of_reachable (hreachable : Relation.ReflTransGen Step (start first) n)
    (hfits : ∀ msg ∈ n.arrived, Fits first msg) :
    n.Delivers (n.arrived.flatMap (through first)) := by
  have hn := conserves_of_reachable hreachable hfits
  obtain ⟨last, hcalls, hquiet, harrived, hlast⟩ := hn.settles
  refine ⟨hn.out_prefix, hn.out_eq, last, hcalls, hquiet, harrived, ?_⟩
  rw [hlast.out_eq hquiet, harrived]

/-- What becomes of each message is delivered in the order of the messages. -/
theorem delivers_of_items {α : Type*} (hreachable : Relation.ReflTransGen Step (start first) n)
    {items : List α} {arriving : α → Message} (harrived : n.arrived = items.map arriving)
    (hfits : ∀ item ∈ items, Fits first (arriving item)) :
    n.Delivers (items.map fun item => through first (arriving item)).flatten := by
  have hall : ∀ msg ∈ n.arrived, Fits first msg := by
    rw [harrived]
    intro msg hmsg
    obtain ⟨item, hitem, rfl⟩ := List.mem_map.mp hmsg
    exact hfits item hitem
  have hdelivers := delivers_of_reachable hreachable hall
  rwa [harrived, List.flatMap_map, List.flatMap_def] at hdelivers

/-- Messages that become one message each are delivered in their order. -/
theorem delivers_zipWith {α β : Type*} (hreachable : Relation.ReflTransGen Step (start first) n)
    {items : List α} {sent : List β} {arriving : α → Message} {result : α → β → Message}
    (harrived : n.arrived = items.map arriving)
    (hitem : ∀ (k : Nat) (item : α), items[k]? = some item → ∃ b, sent[k]? = some b ∧
      Fits first (arriving item) ∧ through first (arriving item) = [result item b]) :
    n.Delivers (List.zipWith result items sent) := by
  have hthrough : (items.map fun item => through first (arriving item)).flatten =
      List.zipWith result items sent := by
    clear harrived
    induction items generalizing sent with
    | nil => rfl
    | cons item rest ih =>
        obtain ⟨b, hb, -, hfirst⟩ := hitem 0 item rfl
        obtain ⟨others, rfl⟩ : ∃ others, sent = b :: others := by
          cases sent with
          | nil => cases hb
          | cons other others => exact ⟨others, by rw [Option.some.inj hb]⟩
        rw [List.map_cons, List.flatten_cons, hfirst, List.zipWith_cons_cons,
          ih fun k other hother => hitem (k + 1) other hother]
        rfl
  rw [← hthrough]
  refine delivers_of_items hreachable harrived fun item hmem => ?_
  obtain ⟨k, hk⟩ := List.mem_iff_getElem?.mp hmem
  obtain ⟨-, -, hfits, -⟩ := hitem k item hk
  exact hfits

end Network

end Foundation.Pipeline
