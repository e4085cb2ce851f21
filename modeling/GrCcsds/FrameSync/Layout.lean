import GrCcsds.Foundation.Transition
import GrCcsds.FrameSync.Buffer
import Mathlib.Data.List.GetD

/-! # The shifting buffer with any block length

A session is a buffer under any calls of its interface, together with the
symbols that it has accepted.
-/

namespace GrCcsds.FrameSync

open Utils Foundation

namespace Layout

variable {env : Platform} (layout : Layout env.Sample) (b : Buffer env)

theorem readSignal_snd (input : List env.Sample) (snrEnd : env.Snr) :
    (layout.readSignal b input snrEnd).2 = min input.length (layout.numSymbolsMissing b) := by
  change (if _ then _ else _) = _
  rw [numSymbolsMissing]
  split <;> omega

theorem readSignal_numItems (input : List env.Sample) (snrEnd : env.Snr) :
    (layout.readSignal b input snrEnd).1.numItems =
      b.numItems + min input.length (layout.numSymbolsMissing b) := by
  rw [← readSignal_snd layout b input snrEnd]
  rfl

theorem readSignal_signal (input : List env.Sample) (snrEnd : env.Snr) :
    (layout.readSignal b input snrEnd).1.signal =
      Memory.copy b.numItems (min input.length (layout.numSymbolsMissing b))
        (fun i => input.getD i env.zero) b.signal := by
  rw [← readSignal_snd layout b input snrEnd]
  rfl

theorem readSignal_correlation (input : List env.Sample) (snrEnd : env.Snr) :
    (layout.readSignal b input snrEnd).1.correlation =
      layout.correlate (layout.readSignal b input snrEnd).1.signal (b.numItems - layout.asmLen)
        ((layout.readSignal b input snrEnd).1.numItems - layout.asmLen -
          (b.numItems - layout.asmLen)) b.correlation := by
  simp only [readSignal, minusCapZero_eq_sub]

@[simp] theorem readSignal_offsetCounter (input : List env.Sample) (snrEnd : env.Snr) :
    (layout.readSignal b input snrEnd).1.offsetCounter = b.offsetCounter := rfl

variable {layout}

theorem advance_cases {b next : Buffer env} (hadvance : layout.advance b = some next) :
    b.numItems = layout.bufferLen ∧ next.numItems = b.numItems - layout.blockLen ∧
      next.offsetCounter = b.offsetCounter + layout.blockLen ∧
      next.signal = Buffer.rotate layout.bufferLen layout.blockLen b.signal ∧
      next.correlation =
        Buffer.rotate (layout.historyLen + layout.blockLen) layout.blockLen b.correlation := by
  unfold advance at hadvance
  split at hadvance
  next hfull =>
    cases hadvance
    refine ⟨beq_iff_eq.mp hfull, rfl, rfl, rfl, ?_⟩
    change Buffer.rotate (layout.bufferLen - layout.overlapLen) _ _ = _
    rw [bufferLen_eq, Nat.add_sub_cancel]
  next => cases hadvance

/-- The calls of the interface that change a buffer. -/
inductive Call (env : Platform) where
  | readSignal (input : List env.Sample) (snrEnd : env.Snr)
  | advance

end Layout

/-- A buffer and the symbols that its calls have accepted. -/
structure Session (env : Platform) where
  buffer : Buffer env
  accepted : List env.Sample

namespace Session

variable {env : Platform} (layout : Layout env.Sample)

def start : Session env := ⟨layout.initial, []⟩

def step (s : Session env) : Layout.Call env → Option (Session env)
  | .readSignal input snrEnd =>
    let (buffer, numRead) := layout.readSignal s.buffer input snrEnd
    some ⟨buffer, s.accepted ++ input.take numRead⟩
  | .advance => (layout.advance s.buffer).map fun buffer => { s with buffer := buffer }

/-- The sessions that any calls lead to. -/
abbrev Reached : Session env → Prop :=
  Transition.Reachable (step layout) (fun _ _ => True) (start layout)

variable {layout}

/-- The symbols that a buffer has held: the history of zeros and the accepted symbols. -/
def padded (layout : Layout env.Sample) (s : Session env) : List env.Sample :=
  List.replicate layout.historyLen env.zero ++ s.accepted

theorem length_padded (layout : Layout env.Sample) (s : Session env) :
    (s.padded layout).length = layout.historyLen + s.accepted.length := by
  rw [padded, List.length_append, List.length_replicate]

/-- The padded stream at the position of an accepted symbol. -/
theorem padded_getD (layout : Layout env.Sample) (s : Session env) {p : Nat}
    (hp : p < s.accepted.length) :
    s.accepted[p]? = some ((s.padded layout).getD (layout.historyLen + p) env.zero) := by
  rw [padded, List.getD_append_right _ _ _ _ (by simp), List.length_replicate,
    Nat.add_sub_cancel_left, List.getD_eq_getElem _ _ hp, List.getElem?_eq_getElem hp]

/-- Reading symbols extends the padded stream. -/
theorem padded_append (layout : Layout env.Sample) (s : Session env) (buffer : Buffer env)
    (symbols : List env.Sample) :
    padded layout ⟨buffer, s.accepted ++ symbols⟩ = s.padded layout ++ symbols :=
  (List.append_assoc _ _ _).symm

/-- The buffer holds the latest part of the padded stream. -/
structure Holds (layout : Layout env.Sample) (s : Session env) : Prop where
  history_le : layout.historyLen ≤ s.buffer.numItems
  le_bufferLen : s.buffer.numItems ≤ layout.bufferLen
  accepted : s.buffer.offsetCounter + s.buffer.numItems =
    layout.historyLen + s.accepted.length
  signal : ∀ i < s.buffer.numItems,
    s.buffer.signal i = (s.padded layout).getD (s.buffer.offsetCounter + i) env.zero

theorem holds_start (layout : Layout env.Sample) : Holds layout (start layout) where
  history_le := Nat.le_refl _
  le_bufferLen := by
    change layout.historyLen ≤ _
    rw [layout.bufferLen_eq]
    omega
  accepted := Nat.add_comm _ _
  signal := by
    intro i hi
    change i < layout.historyLen at hi
    change env.zero = (List.replicate layout.historyLen env.zero ++ []).getD (0 + i) env.zero
    rw [Nat.zero_add, List.append_nil, List.getD_replicate _ hi]

theorem Holds.readSignal {s : Session env} (hholds : Holds layout s) (input : List env.Sample)
    (snrEnd : env.Snr) :
    Holds layout ⟨(layout.readSignal s.buffer input snrEnd).1,
      s.accepted ++ input.take (layout.readSignal s.buffer input snrEnd).2⟩ := by
  have hhistory := hholds.history_le
  have hlen := hholds.le_bufferLen
  have haccepted := hholds.accepted
  have hitems := layout.readSignal_numItems s.buffer input snrEnd
  have hmissing : layout.numSymbolsMissing s.buffer = layout.bufferLen - s.buffer.numItems := rfl
  refine ⟨?_, ?_, ?_, ?_⟩
  · rw [hitems]
    omega
  · rw [hitems]
    omega
  · rw [hitems, layout.readSignal_snd, List.length_append, List.length_take,
      layout.readSignal_offsetCounter]
    omega
  · intro i hi
    rw [hitems] at hi
    have hlength := s.length_padded layout
    rw [padded_append, layout.readSignal_signal, layout.readSignal_offsetCounter,
      layout.readSignal_snd]
    -- old symbols stay in place, new ones follow the items of the buffer
    by_cases hold : i < s.buffer.numItems
    · rw [Memory.copy_outside _ _ (Or.inl hold), List.getD_append _ _ _ _ (by omega)]
      exact hholds.signal i hold
    · obtain ⟨k, rfl⟩ := Nat.exists_eq_add_of_le (Nat.le_of_not_lt hold)
      have hk : k < min input.length (layout.numSymbolsMissing s.buffer) := by omega
      have hindex : s.buffer.offsetCounter + (s.buffer.numItems + k) -
          (s.padded layout).length = k := by omega
      rw [Memory.copy_inside _ _ _ hk, List.getD_append_right _ _ _ _ (by omega), hindex]
      simp only [List.getD_eq_getElem?_getD, List.getElem?_take_of_lt hk]

theorem Holds.advance {s : Session env} (hholds : Holds layout s) {next : Buffer env}
    (hadvance : layout.advance s.buffer = some next) :
    Holds layout { s with buffer := next } := by
  obtain ⟨hfull, hitems, hoffset, hsignal, -⟩ := Layout.advance_cases hadvance
  have haccepted := hholds.accepted
  have hlen := layout.bufferLen_eq
  refine ⟨?_, ?_, ?_, ?_⟩
  · rw [hitems]
    omega
  · rw [hitems]
    omega
  · rw [hitems, hoffset]
    change _ = layout.historyLen + s.accepted.length
    omega
  · intro i hi
    change i < next.numItems at hi
    rw [hitems] at hi
    rw [hsignal, hoffset, Buffer.rotate, if_pos (by omega), Nat.mod_eq_of_lt (by omega),
      hholds.signal _ (by omega), Nat.add_comm i, ← Nat.add_assoc]
    rfl

theorem Holds.step {s next : Session env} (hholds : Holds layout s) {call : Layout.Call env}
    (hstep : step layout s call = some next) : Holds layout next := by
  cases call with
  | readSignal input snrEnd =>
      cases hstep
      exact hholds.readSignal input snrEnd
  | advance =>
      obtain ⟨buffer, hadvance, rfl⟩ := Option.map_eq_some_iff.mp hstep
      exact hholds.advance hadvance

theorem Reached.holds {s : Session env} (hreached : Reached layout s) : Holds layout s :=
  hreached.invariant (holds_start layout) fun _ _ _ hholds _ hstep => hholds.step hstep

/-- A held symbol at its absolute position. -/
theorem Holds.signalAt {s : Session env} (hholds : Holds layout s) {p : Nat}
    (hstart : layout.offsetStart s.buffer ≤ p) (hp : p < s.accepted.length) :
    s.accepted[p]? = some (layout.signal s.buffer p) := by
  have haccepted := hholds.accepted
  rw [Layout.offsetStart, minusCapZero_eq_sub] at hstart
  have hindex : s.buffer.offsetCounter + layout.localOffset s.buffer p =
      layout.historyLen + p := by
    rw [Layout.localOffset, minusCapZero_eq_sub]
    omega
  rw [padded_getD layout s hp, ← hindex, Layout.signal,
    hholds.signal _ (by omega)]

/-- The symbol at an index of the current block or the overlap. -/
theorem Holds.signalWindow {s : Session env} (hholds : Holds layout s) {i : Nat}
    (hi : i < layout.numSymbolsInWindow s.buffer) :
    s.accepted[s.buffer.offset + i]? = some (layout.signalWindow s.buffer i) := by
  have haccepted := hholds.accepted
  rw [Layout.numSymbolsInWindow, minusCapZero_eq_sub] at hi
  have hindex : s.buffer.offsetCounter + (layout.historyLen + i) =
      layout.historyLen + (s.buffer.offset + i) := by
    rw [Buffer.offset]
    omega
  rw [padded_getD layout s (by rw [Buffer.offset]; omega), ← hindex,
    Layout.signalWindow, hholds.signal _ (by omega)]

end Session

end GrCcsds.FrameSync
