import GrCcsds.FrameSync.Layout
import GrCcsds.FrameSync.Window
import Mathlib.Algebra.BigOperators.Fin

/-! # The correlations of a full buffer

In exact arithmetic a full buffer holds the correlation of the ASM with every
position of the current block but the last. The last entry is what `advance`
has rotated there.
-/

namespace GrCcsds.FrameSync

open Utils Foundation

/-- Samples in exact arithmetic. -/
structure Platform.Exact (env : Platform) [Semiring env.Sample] : Prop where
  zero : env.zero = 0
  dotProduct : ∀ xs ys, xs.length = ys.length →
    env.dotProduct xs ys = (List.zipWith (fun x y => x * y) xs ys).sum

namespace Layout

variable {env : Platform} [Semiring env.Sample] (layout : Layout env.Sample)

/-- The correlation of the ASM with the symbols of a stream from a position on. -/
def correlationOf (stream : Nat → env.Sample) (p : Nat) : env.Sample :=
  ∑ j : Fin layout.asmLen, stream (p + j) * layout.asmConj j

theorem correlationOf_congr {stream other : Nat → env.Sample} {p q : Nat}
    (heq : ∀ j < layout.asmLen, stream (p + j) = other (q + j)) :
    layout.correlationOf stream p = layout.correlationOf other q := by
  apply Finset.sum_congr rfl
  intro j _
  rw [heq j j.isLt]

theorem dotProductAt_eq (hexact : env.Exact) (signal : Nat → env.Sample) (i : Nat) :
    layout.dotProductAt signal i = layout.correlationOf signal i := by
  have hproducts : List.zipWith (fun x y => x * y)
      ((List.range layout.asmLen).map fun j => signal (i + j))
        ((List.range layout.asmLen).map layout.asmConj) =
      List.ofFn fun j : Fin layout.asmLen => signal (i + j) * layout.asmConj j := by
    apply List.ext_getElem
    · simp
    · intro j _ _
      simp
  rw [dotProductAt, hexact.dotProduct _ _ (by simp), hproducts, List.sum_ofFn, correlationOf]

omit [Semiring env.Sample] in
/-- The loop of `read_signal` leaves the indices that it does not reach. -/
theorem correlate_outside (signal correlation : Nat → env.Sample) {start count i : Nat}
    (houtside : i < start ∨ start + count ≤ i) :
    layout.correlate signal start count correlation i = correlation i := by
  induction count with
  | zero => rfl
  | succ count ih =>
      have hne : i ≠ start + count := by omega
      rw [correlate, Memory.scatter, Function.update_of_ne hne]
      exact ih (by omega)

omit [Semiring env.Sample] in
theorem correlate_inside (signal correlation : Nat → env.Sample) (start : Nat)
    {count k : Nat} (hk : k < count) :
    layout.correlate signal start count correlation (start + k) =
      layout.dotProductAt signal (start + k) :=
  Memory.scatter_apply _ _ (fun _ _ _ _ heq => Nat.add_left_cancel heq) hk

end Layout

namespace Session

variable {env : Platform} [Semiring env.Sample] {layout : Layout env.Sample}

/-- The correlation at a position of the padded stream. -/
def correlationAt (layout : Layout env.Sample) (s : Session env) (i : Nat) : env.Sample :=
  layout.correlationOf (fun k => (s.padded layout).getD k 0) i

/-- What the last index of the current block is left with: without a history nothing is
ever stored there, otherwise it has moved there from the start of the previous buffer. -/
def leftover (layout : Layout env.Sample) (s : Session env) : env.Sample :=
  if layout.historyLen = 0 ∨ s.buffer.offset = 0 then 0
  else s.correlationAt layout (s.buffer.offset - 1)

theorem leftover_eq_zero {s : Session env}
    (hnone : layout.historyLen = 0 ∨ s.buffer.offset = 0) : s.leftover layout = 0 :=
  if_pos hnone

/-- The correlations that the buffer holds. -/
structure Correlated (layout : Layout env.Sample) (s : Session env) : Prop where
  /-- The overlap is never read back. -/
  overlap : 0 < s.buffer.offset → layout.historyLen + layout.overlapLen ≤ s.buffer.numItems
  computed : ∀ i, i + layout.asmLen < s.buffer.numItems →
    s.buffer.correlation i = layout.correlationOf s.buffer.signal i
  last : 0 < layout.blockLen →
    s.buffer.correlation (layout.historyLen + layout.blockLen - 1) = s.leftover layout

theorem correlated_start (hexact : env.Exact) (layout : Layout env.Sample) :
    Correlated layout (start layout) where
  overlap := fun h => absurd h (Nat.lt_irrefl 0)
  computed := by
    intro i _
    change env.zero = layout.correlationOf (fun _ => env.zero) i
    simp [Layout.correlationOf, hexact.zero]
  last := by
    intro _
    change env.zero = _
    rw [leftover_eq_zero (Or.inr rfl), hexact.zero]

/-- Symbols that the buffer holds correlate as the padded stream does. -/
theorem Holds.correlationOf {s : Session env} (hexact : env.Exact) (hholds : Holds layout s)
    {i : Nat} (hi : i + layout.asmLen ≤ s.buffer.numItems) :
    layout.correlationOf s.buffer.signal i =
      s.correlationAt layout (s.buffer.offset + i) := by
  apply layout.correlationOf_congr
  intro j hj
  rw [hholds.signal _ (by omega), hexact.zero, Buffer.offset, Nat.add_assoc]

/-- Reading symbols keeps the correlations of symbols that are there. -/
theorem correlationAt_append (layout : Layout env.Sample) (s : Session env)
    (buffer : Buffer env) (symbols : List env.Sample) {i : Nat}
    (hi : i + layout.asmLen ≤ layout.historyLen + s.accepted.length) :
    correlationAt layout ⟨buffer, s.accepted ++ symbols⟩ i = s.correlationAt layout i := by
  have hlength := s.length_padded layout
  apply layout.correlationOf_congr
  intro j hj
  rw [padded_append, List.getD_append _ _ _ _ (by omega)]

theorem Correlated.readSignal {s : Session env} (hexact : env.Exact) (hholds : Holds layout s)
    (hcorrelated : Correlated layout s) (input : List env.Sample) (snrEnd : env.Snr) :
    Correlated layout ⟨(layout.readSignal s.buffer input snrEnd).1,
      s.accepted ++ input.take (layout.readSignal s.buffer input snrEnd).2⟩ := by
  have hitems := layout.readSignal_numItems s.buffer input snrEnd
  have hlen := hholds.le_bufferLen
  have hmissing : layout.numSymbolsMissing s.buffer = layout.bufferLen - s.buffer.numItems := rfl
  have hbuffer := layout.bufferLen_eq
  have hasm := layout.overlapLen_add_one
  refine ⟨?_, ?_, ?_⟩
  · intro hoffset
    have hoverlap := hcorrelated.overlap hoffset
    rw [hitems]
    omega
  · intro i hi
    change i + layout.asmLen < (layout.readSignal s.buffer input snrEnd).1.numItems at hi
    rw [layout.readSignal_correlation]
    -- old correlations stay, those of the new symbols are computed
    by_cases hold : i + layout.asmLen < s.buffer.numItems
    · rw [layout.correlate_outside _ _ (Or.inl (by omega)), hcorrelated.computed i hold]
      apply layout.correlationOf_congr
      intro j hj
      rw [layout.readSignal_signal, Memory.copy_outside _ _ (Or.inl (by omega))]
    · obtain ⟨k, rfl⟩ := Nat.exists_eq_add_of_le
        (show s.buffer.numItems - layout.asmLen ≤ i by omega)
      rw [layout.correlate_inside _ _ _ (by omega), layout.dotProductAt_eq hexact]
  · intro hblock
    have hlast := hcorrelated.last hblock
    -- the loop stops one short of the last index
    rw [layout.readSignal_correlation, layout.correlate_outside _ _ (Or.inr (by omega)), hlast]
    unfold leftover
    rw [Buffer.offset, Buffer.offset, layout.readSignal_offsetCounter]
    split
    next => rfl
    next hmoved =>
      have hoverlap := hcorrelated.overlap (by rw [Buffer.offset]; omega)
      have haccepted := hholds.accepted
      exact (correlationAt_append layout s _ _ (by omega)).symm

theorem Correlated.advance {s : Session env} (hexact : env.Exact) (hholds : Holds layout s)
    (hcorrelated : Correlated layout s) {next : Buffer env}
    (hadvance : layout.advance s.buffer = some next) :
    Correlated layout { s with buffer := next } := by
  obtain ⟨hfull, hitems, hoffset, hsignal, hcorrelation⟩ := Layout.advance_cases hadvance
  have hbuffer := layout.bufferLen_eq
  have hasm := layout.overlapLen_add_one
  have haccepted := hholds.accepted
  refine ⟨?_, ?_, ?_⟩
  · intro _
    change _ ≤ next.numItems
    omega
  · intro i hi
    change i + layout.asmLen < next.numItems at hi
    change next.correlation i = layout.correlationOf next.signal i
    rw [hcorrelation, Buffer.rotate, if_pos (by omega), Nat.mod_eq_of_lt (by omega),
      hcorrelated.computed _ (by omega)]
    apply layout.correlationOf_congr
    intro j hj
    rw [hsignal, Buffer.rotate, if_pos (by omega), Nat.mod_eq_of_lt (by omega),
      Nat.add_right_comm]
  · intro hblock
    -- the entry comes from the last index of the first block of the previous buffer
    have hindex : (layout.historyLen + layout.blockLen - 1 + layout.blockLen) %
        (layout.historyLen + layout.blockLen) = layout.blockLen - 1 := by
      have hsplit : layout.historyLen + layout.blockLen - 1 + layout.blockLen =
          layout.blockLen - 1 + (layout.historyLen + layout.blockLen) := by omega
      rw [hsplit, Nat.add_mod_right, Nat.mod_eq_of_lt (by omega)]
    change next.correlation _ = _
    rw [hcorrelation, Buffer.rotate, if_pos (by omega), hindex, leftover]
    change _ = if layout.historyLen = 0 ∨ next.offset = 0 then 0
      else s.correlationAt layout (next.offset - 1)
    rw [Buffer.offset, hoffset]
    split
    next hnone =>
      have hhistory : layout.historyLen = 0 := by omega
      have hlast := hcorrelated.last hblock
      rw [leftover_eq_zero (Or.inl hhistory), hhistory, Nat.zero_add] at hlast
      exact hlast
    next hmoved =>
      rw [hcorrelated.computed _ (by omega), hholds.correlationOf hexact (by omega),
        Nat.add_sub_assoc hblock, Buffer.offset]

theorem Correlated.step {s next : Session env} (hexact : env.Exact) (hholds : Holds layout s)
    (hcorrelated : Correlated layout s) {call : Layout.Call env}
    (hstep : step layout s call = some next) : Correlated layout next := by
  cases call with
  | readSignal input snrEnd =>
      cases hstep
      exact hcorrelated.readSignal hexact hholds input snrEnd
  | advance =>
      obtain ⟨buffer, hadvance, rfl⟩ := Option.map_eq_some_iff.mp hstep
      exact hcorrelated.advance hexact hholds hadvance

theorem Reached.correlated {s : Session env} (hexact : env.Exact)
    (hreached : Reached layout s) : Correlated layout s := by
  apply hreached.invariant_along (correlated_start hexact layout)
  intro s call next hbefore hcorrelated _ hstep
  exact hcorrelated.step hexact (Reached.holds hbefore) hstep

/-- In a full buffer every correlation before the last is that of the window. -/
theorem Correlated.correlationWindow {s : Session env} (hcorrelated : Correlated layout s)
    (hfull : layout.full s.buffer = true) {i : Nat} (hi : i + 1 < layout.blockLen) :
    layout.correlationWindow s.buffer i =
      ∑ j : Fin layout.asmLen,
        layout.signalWindow s.buffer (i + j) * layout.asmConj j := by
  have hitems : s.buffer.numItems = layout.bufferLen := beq_iff_eq.mp hfull
  have hbuffer := layout.bufferLen_eq
  have hasm := layout.overlapLen_add_one
  rw [Layout.correlationWindow, hcorrelated.computed _ (by omega)]
  simp only [Layout.correlationOf, Layout.signalWindow, Nat.add_assoc]

end Session

section Block

variable {env : Platform} {cfg : Config}

theorem layout_advance (b : Buffer env) (hfull : b.numItems = cfg.bufferLen) :
    (cfg.layout env).advance b = some (b.advance cfg) :=
  if_pos (beq_iff_eq.mpr hfull)

namespace Machine

/-- The session of a machine before its stop. -/
def session (m : Machine env) : Session env := ⟨m.block.buffer, m.received⟩

/-- The symbols that the next iteration of `work` reads. -/
def chunk (cfg : Config) (m : Machine env) (rest : List env.Sample) : List env.Sample :=
  rest.take (min rest.length (m.block.buffer.numSymbolsMissing cfg))

theorem readNext_snrEst (m : Machine env) (rest : List env.Sample) :
    (m.readNext cfg rest).block.snrEst =
      env.updateEstimator m.block.snrEst (m.chunk cfg rest) := by
  rw [readNext_block, chunk, ← pickSmaller_eq_min]
  rfl

theorem step_readSignal (s : Session env) (input : List env.Sample) (snrEnd : env.Snr) :
    Session.step (cfg.layout env) s (.readSignal input snrEnd) =
      some ⟨(s.buffer.readSignal cfg input snrEnd).1,
        s.accepted ++ input.take (s.buffer.readSignal cfg input snrEnd).2⟩ := rfl

theorem readNext_session_eq (m : Machine env) (rest : List env.Sample) :
    Session.step (cfg.layout env) m.session
        (.readSignal (m.chunk cfg rest) (env.getSnr (m.readNext cfg rest).block.snrEst)) =
      some (m.readNext cfg rest).session := by
  rw [step_readSignal, readNext_snrEst]
  unfold session
  rw [readNext_received, readNext_block, readChunk_buffer]
  simp only [chunk, Buffer.readSignal_snd, Buffer.numSymbolsMissing_eq, List.take_take,
    List.length_take]
  have hcount : ∀ m n : Nat, min (min (min (min m n) m) n) (min m n) = min n m := by
    intro m n
    omega
  rw [hcount, ← List.take_eq_take_min]

theorem readNext_session (m : Machine env) (rest : List env.Sample) :
    ∃ input snrEnd, Session.step (cfg.layout env) m.session (.readSignal input snrEnd) =
      some (m.readNext cfg rest).session :=
  ⟨_, _, m.readNext_session_eq rest⟩

/-- Until the stop the block uses its buffer as a session does. -/
theorem session_step {m next : Machine env} {label : Label env.Sample}
    (hcounts : Counts cfg m) (hmoves : Moves cfg m label next) (hworking : next.point.isWorking)
    (hsession : m.point.isWorking → Session.Reached (cfg.layout env) m.session) :
    Session.Reached (cfg.layout env) next.session := by
  cases hmoves with
  | call _ hpoint | leave hpoint | serve _ hpoint | finish hpoint =>
      exact hsession (by rw [hpoint]; rfl)
  | read rest _ hpoint =>
      obtain ⟨input, snrEnd, hread⟩ := m.readNext_session rest
      exact (hsession (by rw [hpoint]; rfl)).step trivial hread
  | search rest index ambiguity hpoint _ =>
      have hsame : (m.search cfg index ambiguity (.serve rest) .workRaised).session =
          m.session := by
        rw [session, search_block, processed_buffer, search_received]
        rfl
      rw [hsame]
      exact hsession (by rw [hpoint]; rfl)
  | advance rest hpoint =>
      have hfull := hcounts.full (by rw [hpoint]; rfl)
      have hadvance : Session.step (cfg.layout env) m.session .advance =
          some ⟨m.block.buffer.advance cfg, m.received⟩ :=
        congrArg (Option.map _) (layout_advance _ hfull)
      exact (hsession (by rw [hpoint]; rfl)).step trivial hadvance
  | stop _ =>
      unfold beginStop at hworking
      split at hworking <;> cases hworking
  | stopSearch maxItems index ambiguity _ _ =>
      rcases search_point cfg m index ambiguity .stopServe .stopRaised with h | h
      all_goals
        rw [h] at hworking
        cases hworking
  | stopServe _ | flush _ => cases hworking

theorem reached_session {allowed : Machine env → Label env.Sample → Prop} {b : Block env}
    (hb : b.buffer = .initial cfg) {m : Machine env}
    (hreachable : Transition.Reachable (step cfg) allowed (start b) m)
    (hworking : m.point.isWorking) :
    Session.Reached (cfg.layout env) m.session := by
  have hinvariant : Counts cfg m ∧
      (m.point.isWorking → Session.Reached (cfg.layout env) m.session) := by
    apply hreachable.invariant
    · refine ⟨counts_start hb, ?_⟩
      intro _
      have hstart : (start b).session = Session.start (cfg.layout env) := by
        unfold session
        change (⟨b.buffer, []⟩ : Session env) = _
        rw [hb]
        rfl
      rw [hstart]
      exact .refl
    · intro m label next hinv _ hstep
      have hmoves := moves_of_step hstep
      exact ⟨hinv.1.step hmoves, fun hnext => session_step hinv.1 hmoves hnext hinv.2⟩
  exact hinvariant.2 hworking

/-- Every correlation but the last is right when the block searches its buffer. -/
theorem correlationWindow_of_search [Semiring env.Sample] (hexact : env.Exact)
    {allowed : Machine env → Label env.Sample → Prop} {b : Block env}
    (hb : b.buffer = .initial cfg) {m : Machine env}
    (hreachable : Transition.Reachable (step cfg) allowed (start b) m)
    {rest : List env.Sample} (hpoint : m.point = .search rest) {i : Nat}
    (hi : i + 1 < cfg.blockLen) :
    m.block.buffer.correlation (cfg.historyLen + i) =
      ∑ j : Fin cfg.asmLen,
        m.block.buffer.signal (cfg.historyLen + (i + j)) * env.asmConj j := by
  have hworking : m.point.isWorking := by rw [hpoint]; rfl
  have hreached := reached_session hb hreachable hworking
  have hcounts : Counts cfg m := by
    apply hreachable.invariant (counts_start hb)
    intro _ _ _ hcounts _ hstep
    exact hcounts.step (moves_of_step hstep)
  have hfull : (cfg.layout env).full m.block.buffer = true := by
    exact beq_iff_eq.mpr (hcounts.full (by rw [hpoint]; rfl))
  exact (hreached.correlated hexact).correlationWindow hfull hi

end Machine

end Block

end GrCcsds.FrameSync
