import GrCcsds.FrameSync.Content

/-! # The flag of complete frames

`frame_complete` is true for a frame whose symbols have all been copied, and
false for one that is flushed before. It tells whether the symbols have been
received as long as no frame is completed with other symbols of the buffer,
such as the zeros that `stop` appends.
-/

namespace GrCcsds.FrameSync

open Utils Foundation

variable {env : Platform} {cfg : Config}

/-- The flag of a message is true only for a completely received frame, and false if a
symbol is missing. -/
structure Task.FlagCorrect (cfg : Config) (received : List env.Sample) (t : Task env) : Prop where
  complete : t.header "frame_complete" = some (.bool true) → t.FollowsStream cfg received
  unwritten : t.numSymbolsCopied < t.numSymbolsTotal →
    t.header "frame_complete" = some (.bool false)
  undelivered : (∃ i < cfg.outputLen, received.length ≤ frameStart cfg t.asmPos.offset + i) →
    t.header "frame_complete" = some (.bool false)

/-- Flushing marks an unfinished frame. -/
theorem flushTask_flag {t s : Task env} (hwell : t.WellFormed cfg)
    (hflush : flushTask t = some s) :
    s.dataComplete ∨ s.header "frame_complete" = some (.bool false) := by
  have hle := hwell.copied_le
  obtain ⟨_, _, ⟨_, rfl⟩ | ⟨hcopied, rfl⟩⟩ := flushTask_cases hflush
  · exact Or.inr (Dict.add_self t.header "frame_complete" (.bool false))
  · exact Or.inl (beq_iff_eq.mpr (Nat.le_antisymm hle hcopied))

namespace Machine

/-- Every published frame is complete or marked as unfinished. -/
def Marked (m : Machine env) : Prop :=
  ∀ t ∈ m.block.published,
    t.dataComplete ∨ t.header "frame_complete" = some (.bool false)

theorem marked_start {additional : List AsmPosition} {b : Block env}
    (hb : construct cfg additional = some b) : Marked (start b) := by
  obtain ⟨queue, _, rfl⟩ := construct_eq hb
  exact nofun

theorem Marked.step {m next : Machine env} {label : Label env.Sample} (hmarked : Marked m)
    (hwell : TasksWell cfg m) (hmoves : Moves cfg m label next) : Marked next := by
  intro t ht
  cases hmoves.tasks with
  | keep _ _ hout _ =>
      rw [Block.published, hout] at ht
      exact hmarked t ht
  | enqueue _ index ambiguity hblock =>
      rw [Block.published, hblock, processed_out] at ht
      exact hmarked t ht
  | serve _ _ _ hblock =>
      rw [hblock, mem_published_processFrameQueue] at ht
      obtain hold | ⟨s, _, hready, rfl⟩ := ht
      · exact hmarked t hold
      · simp only [Task.isReady, Bool.and_eq_true] at hready
        exact Or.inl hready.1.1
  | flush _ _ _ hblock =>
      rw [hblock, flushFrames_published, List.mem_append] at ht
      obtain hold | hnew := ht
      · exact hmarked t hold
      · obtain ⟨s, hs, hflush⟩ := List.mem_filterMap.mp hnew
        exact flushTask_flag (hwell.queued s hs) hflush

end Machine

/-- In every run in which processing the queue completes frames with received symbols only,
every published frame carries the right flag. -/
theorem complete_flag_correct {additional : List AsmPosition} {b : Block env}
    (hb : construct cfg additional = some b) {m : Machine env}
    (hreachable : Transition.Reachable (Machine.step cfg) (fun m _ => m.ReadsReceived cfg)
      (.start b) m) {t : Task env} (ht : .frame t ∈ m.block.out) :
    t.FlagCorrect cfg m.received := by
  have hsound := Machine.sound_of_reachable hb hreachable
  have hcontents : m.Contents cfg :=
    Machine.invariant_of_reachable hb hreachable (Machine.contents_start hb)
      fun _ _ _ _ hsound hcontents hreads hmoves =>
        hcontents.step hsound.well hsound.holds hreads hmoves
  have hmarked : m.Marked :=
    Machine.invariant_of_reachable hb hreachable (Machine.marked_start hb)
      fun _ _ _ _ hsound hmarked _ hmoves => hmarked.step hsound.well hmoves
  have hpublished := Block.mem_published.mpr ht
  have hwell := hsound.well.published t hpublished
  have hflag := hmarked t hpublished
  have hfollows : t.dataComplete → t.FollowsStream cfg m.received := by
    intro hcomplete
    exact (hcontents.published t hpublished hcomplete).followsStream hwell hcomplete
      List.prefix_rfl
  refine ⟨?_, ?_, ?_⟩
  · intro htrue
    apply hfollows
    apply hflag.resolve_right
    simp [htrue]
  · intro hless
    apply hflag.resolve_left
    intro hcomplete
    exact Nat.ne_of_lt hless (beq_iff_eq.mp hcomplete)
  · rintro ⟨i, hi, hmissing⟩
    apply hflag.resolve_left
    intro hcomplete
    have hcopied : t.numSymbolsCopied = cfg.outputLen :=
      (beq_iff_eq.mp hcomplete).trans hwell.numSymbolsTotal
    obtain ⟨symbol, hsymbol, _⟩ := hcontents.published t hpublished hcomplete i (hcopied ▸ hi)
    exact Nat.not_lt.mpr hmissing (List.getElem?_eq_some_iff.mp hsymbol).1

/-- The last symbol in the buffer has been received, or the queue is not processed. -/
def Machine.lastReceived (cfg : Config) (m : Machine env) : Bool :=
  !m.point.isServing || decide (m.block.buffer.offsetLastSymbol cfg < m.received.length)

theorem Machine.readsReceived_of_lastReceived {m : Machine env}
    (hlast : m.lastReceived cfg = true) : m.ReadsReceived cfg := by
  intro hserving t _ hover
  have hbehind := hover.2.1
  simp only [lastReceived, hserving, Bool.not_true, Bool.false_or, decide_eq_true_eq] at hlast
  omega

theorem complete_flag_correct_short : ∃ (m : Machine realPlatform) (t : Task realPlatform),
    .frame t ∈ m.block.out ∧ t.header "frame_complete" = some (.bool true) ∧
      t.FlagCorrect shortConfig m.received := by
  have hconstruct : construct shortConfig [] =
      some (Block.initial shortConfig : Block realPlatform) := rfl
  obtain ⟨m, t, hrun, ht, hflag⟩ : ∃ (m : Machine realPlatform) (t : Task realPlatform),
      Transition.run (Transition.guarded (Machine.step shortConfig)
        fun m _ => m.lastReceived shortConfig) (.start (.initial shortConfig)) shortRun = some m ∧
        .frame t ∈ m.block.out ∧ t.header "frame_complete" = some (.bool true) :=
    ⟨_, _, rfl, List.mem_cons_self, rfl⟩
  exact ⟨m, t, ht, hflag, complete_flag_correct hconstruct (Transition.Reachable.of_guarded_run
    .refl (fun _ _ hlast => Machine.readsReceived_of_lastReceived hlast) hrun) ht⟩

/-- The stream ends right behind an ASM. -/
def asmOnlyRun : List (Label realPlatform.Sample) :=
  [.work [-1, -1], .proceed, .proceed, .proceed, .stop, .found 0 1, .proceed, .proceed]

/-- The zero that `stop` appends becomes the symbol of a frame that is marked as complete. -/
theorem asm_only_marked_complete : ∃ (m : Machine realPlatform) (t : Task realPlatform),
    Transition.run (Machine.step shortConfig) (.start (.initial shortConfig)) asmOnlyRun = some m ∧
      m.received = [-1, -1] ∧ .frame t ∈ m.block.out ∧
      t.header "frame_complete" = some (.bool true) ∧ ¬ t.FlagCorrect shortConfig m.received := by
  refine ⟨_, _, rfl, rfl, List.mem_cons_self, rfl, ?_⟩
  intro hcorrect
  have hfalse := hcorrect.undelivered ⟨0, by decide, by decide⟩
  cases hfalse

end GrCcsds.FrameSync
