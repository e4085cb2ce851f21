import GrCcsds.FrameSync.Correlation
import GrCcsds.FrameSync.Fractions
import GrCcsds.FrameSync.Tasks
import GrCcsds.SnrEstimation.Estimator

/-! # The estimates of the frame synchronisation

The SNRs in the buffer are those of the block's own estimator. They are valid
with energies that are not negative, so that every interpolation between them
can be built, and their noise is positive as soon as a symbol with some power
has come.
-/

namespace GrCcsds.FrameSync

open Foundation Extended SnrEstimation

variable {env : Platform} {K : Type} [Field K] [LinearOrder K]

/-- A platform whose estimator is `snr_est`. -/
structure Estimates (env : Platform) (K : Type) [Field K] [LinearOrder K] extends
    SnrValues env K where
  sample : env.Sample → GrComplex K
  estimator : env.Estimator → Estimator K
  estimator_initial : estimator env.initialEstimator = .initial
  estimator_update : ∀ est input,
    estimator (env.updateEstimator est input) = (estimator est).update root (input.map sample)
  value_getSnr : ∀ est, value (env.getSnr est) = (estimator est).getSnr root

namespace Session

variable {layout : Layout env.Sample}

/-- A read with an SNR that fits. -/
theorem ReachedWith.read {fits : env.Snr → Prop} {s : Session env}
    (hreached : ReachedWith layout fits s) (input : List env.Sample) {snrEnd : env.Snr}
    (hfits : fits snrEnd) :
    ReachedWith layout fits ⟨(layout.readSignal s.buffer input snrEnd).1,
      s.accepted ++ input.take (layout.readSignal s.buffer input snrEnd).2⟩ := by
  have hreads : ReadsWith fits (.readSignal input snrEnd) := hfits
  exact Transition.Reachable.step hreached hreads rfl

/-- The interpolation between tags whose noise has a property. -/
theorem ReachedWith.exists_interpolation [IsStrictOrderedRing K] (values : SnrValues env K)
    {p : K → Prop} (hblock : 0 < layout.blockLen) {s : Session env}
    (hreached : ReachedWith layout (fun snr => (values.value snr).Measured values.root p) s)
    (haccepted : s.accepted ≠ []) {pos : Nat}
    (hstart : s.buffer.offset - layout.numHistoryFrames * layout.blockLen ≤ pos)
    (hlast : pos ≤ layout.offsetLastSymbol s.buffer) :
    ∃ start stop made, p start ∧ p stop ∧ layout.snr values s.buffer pos = some made ∧
      made.n00 = finite start ∧ made.n0M = finite (stop - start) := by
  have hholds : Holds layout s := Reached.holds (hreached.mono fun _ _ _ => trivial)
  obtain ⟨numAdvanced, htagged⟩ := hreached.tagged hblock
  have hadvanced := htagged.numAdvanced_le hblock hstart
  obtain ⟨block, hmin⟩ : ∃ block, block = min (pos / layout.blockLen) numAdvanced := ⟨_, rfl⟩
  obtain ⟨k, hk⟩ : ∃ k, k + numAdvanced = block + layout.numHistoryFrames :=
    ⟨block + layout.numHistoryFrames - numAdvanced, by omega⟩
  obtain ⟨arguments, harguments, hfirst, hlast⟩ :
      ∃ arguments, layout.snrArguments s.buffer pos = some arguments ∧
        arguments.first = s.buffer.snrTags.getD k env.invalidSnr ∧
        arguments.last = s.buffer.snrTags.getD (k + 1) env.invalidSnr :=
    ⟨_, htagged.snrArguments hholds hblock hstart hlast hmin hk, rfl, rfl⟩
  have hany := htagged.fits_or_fits hholds haccepted hmin hk
  rw [← hfirst, ← hlast] at hany
  obtain ⟨start, stop, made, hp, hpStop, hmade, hbetween⟩ :=
    values.exists_interpolation (hfirst.symm ▸ htagged.each k) (hlast.symm ▸ htagged.each (k + 1))
      hany
  refine ⟨start, stop, made, hp, hpStop, ?_, hbetween.n00, hbetween.n0M⟩
  rw [Layout.snr, harguments]
  exact hmade

end Session

namespace Machine

/-- The first symbol, if there is one, has a property. -/
def StartsWith {Sample : Type} (p : Sample → Prop) (symbols : List Sample) : Prop :=
  ∀ first, symbols.head? = some first → p first

theorem StartsWith.of_append {Sample : Type} {p : Sample → Prop} {first second : List Sample}
    (hstarts : StartsWith p (first ++ second)) : StartsWith p first := by
  intro head hhead
  exact hstarts head (by rw [List.head?_append, hhead]; rfl)

variable (cfg : Config) (estimates : Estimates env K)
  (p : env.Sample → Prop) (fits : env.Snr → Prop)

/-- The estimator has taken in the received symbols, and the tags come from its estimates. -/
structure Estimating (m : Machine env) : Prop where
  counts : Counts cfg m
  estimator : estimates.estimator m.block.snrEst =
    Estimator.initial.update estimates.root (m.received.map estimates.sample)
  /-- After the stop the buffer has accepted some zeros as well. -/
  session : ∃ accepted, m.received <+: accepted ∧
    (m.point.isWorking → accepted = m.received) ∧
    (StartsWith p m.received →
      Session.ReachedWith (cfg.layout env) fits ⟨m.block.buffer, accepted⟩)

/-- After symbols that start as wanted the estimate fits. -/
def Assures : Prop :=
  ∀ est symbols, symbols ≠ [] → StartsWith p symbols →
    estimates.estimator est =
      Estimator.initial.update estimates.root (symbols.map estimates.sample) →
    fits (env.getSnr est)

variable {cfg} {estimates} {p} {fits}

theorem estimating_start {additional : List AsmPosition} {b : Block env}
    (hb : construct cfg additional = some b) : Estimating cfg estimates p fits (start b) := by
  obtain ⟨queue, -, rfl⟩ := construct_eq hb
  exact ⟨counts_start rfl, estimates.estimator_initial, [], List.prefix_rfl, fun _ => rfl,
    fun _ => .refl⟩

/-- A step that keeps the buffer, the estimator and the received symbols. -/
theorem Estimating.of_buffer {m next : Machine env}
    (hestimating : Estimating cfg estimates p fits m) (hcounts : Counts cfg next)
    (hbuffer : next.block.buffer = m.block.buffer)
    (hestimator : next.block.snrEst = m.block.snrEst) (hreceived : next.received = m.received)
    (hworking : next.point.isWorking → m.point.isWorking) :
    Estimating cfg estimates p fits next := by
  obtain ⟨accepted, hle, hall, hreached⟩ := hestimating.session
  refine ⟨hcounts, ?_, accepted, ?_, ?_, ?_⟩
  · rw [hestimator, hreceived]
    exact hestimating.estimator
  · rw [hreceived]
    exact hle
  · rw [hreceived]
    exact fun hnext => hall (hworking hnext)
  · rw [hreceived, hbuffer]
    exact hreached

theorem readNext_received_chunk (m : Machine env) (rest : List env.Sample) :
    (m.readNext cfg rest).received = m.received ++ m.chunk cfg rest := by
  rw [readNext_received, chunk, Buffer.numSymbolsMissing_eq, Nat.min_comm, ← List.take_eq_take_min]

theorem chunk_ne_nil {m : Machine env} (hcounts : Counts cfg m) {rest : List env.Sample}
    (hrest : rest ≠ []) (hpoint : m.point = .loop rest) : m.chunk cfg rest ≠ [] := by
  have hlength := List.length_pos_iff.mpr hrest
  have hroom := hcounts.waiting (by rw [hpoint]; rfl)
  apply List.ne_nil_of_length_pos
  rw [chunk, Buffer.numSymbolsMissing_eq, List.length_take]
  omega

theorem readNext_estimator {m : Machine env} (rest : List env.Sample)
    (hestimator : estimates.estimator m.block.snrEst =
      Estimator.initial.update estimates.root (m.received.map estimates.sample)) :
    estimates.estimator (m.readNext cfg rest).block.snrEst =
      Estimator.initial.update estimates.root
        ((m.readNext cfg rest).received.map estimates.sample) := by
  rw [readNext_snrEst, estimates.estimator_update, hestimator, readNext_received_chunk,
    List.map_append, Estimator.update_append]

theorem Estimating.read {m : Machine env} (hestimating : Estimating cfg estimates p fits m)
    (hassures : Assures estimates p fits) {rest : List env.Sample} (hrest : rest ≠ [])
    (hpoint : m.point = .loop rest) : Estimating cfg estimates p fits (m.readNext cfg rest) := by
  have hestimator : estimates.estimator (m.readNext cfg rest).block.snrEst = _ :=
    readNext_estimator rest hestimating.estimator
  obtain ⟨accepted, -, hall, hreached⟩ := hestimating.session
  obtain rfl := hall (by rw [hpoint]; rfl)
  refine ⟨hestimating.counts.readNext hpoint, hestimator, _, List.prefix_rfl, fun _ => rfl, ?_⟩
  intro hstarts
  have hne : (m.readNext cfg rest).received ≠ [] := by
    rw [readNext_received_chunk]
    exact List.append_ne_nil_of_right_ne_nil _ (chunk_ne_nil hestimating.counts hrest hpoint)
  have hbefore : StartsWith p m.received := by
    rw [readNext_received_chunk] at hstarts
    exact hstarts.of_append
  have hreads : Session.ReadsWith fits
      (.readSignal (m.chunk cfg rest) (env.getSnr (m.readNext cfg rest).block.snrEst)) :=
    hassures _ _ hne hstarts hestimator
  exact Transition.Reachable.step (hreached hbefore) hreads (m.readNext_session_eq rest)

/-- The zeros at the stop come with an estimate of received symbols, since something is held. -/
theorem Estimating.beginStop {m : Machine env} (hestimating : Estimating cfg estimates p fits m)
    (hassures : Assures estimates p fits) (hworking : m.point.isWorking) :
    Estimating cfg estimates p fits (m.beginStop cfg) := by
  have hcounts := hestimating.counts.beginStop
  by_cases hempty : m.block.buffer.bufferCurrentEmpty cfg = true
  · have hstop : m.beginStop cfg = { m with point := .stopServe } := if_pos hempty
    rw [hstop] at hcounts ⊢
    exact hestimating.of_buffer hcounts rfl rfl rfl nofun
  · have hstop : m.beginStop cfg = { m with
        point := .stopSearch
          (Utils.pickSmaller (m.block.buffer.numSymbolsInWindow cfg) cfg.blockLen)
        block := fillOverlap cfg m.block } := if_neg hempty
    rw [hstop] at hcounts ⊢
    obtain ⟨accepted, -, hall, hreached⟩ := hestimating.session
    obtain rfl := hall hworking
    have hheld : cfg.historyLen < m.block.buffer.numItems := by
      simpa [Buffer.bufferCurrentEmpty] using hempty
    have hlong : 0 < m.received.length := by
      have hequal := hestimating.counts.received_eq hworking
      have haligned := hestimating.counts.received_le
      omega
    let zeros := List.replicate cfg.overlapLen env.zero
    let read := (cfg.layout env).readSignal m.block.buffer zeros (env.getSnr m.block.snrEst)
    refine ⟨hcounts, hestimating.estimator, m.received ++ zeros.take read.2,
      List.prefix_append _ _, nofun, fun hstarts => ?_⟩
    have hfits : fits (env.getSnr m.block.snrEst) :=
      hassures _ _ (List.ne_nil_of_length_pos hlong) hstarts hestimating.estimator
    have hread := (hreached hstarts).read zeros hfits
    rw [fillOverlap]
    exact hread

theorem processed_snrEst (cfg : Config) (b : Block env) (index ambiguity : Nat) :
    (processed cfg b index ambiguity).snrEst = b.snrEst := by
  obtain ⟨queue, heq⟩ := processed_eq cfg b index ambiguity
  rw [heq]

theorem Estimating.search {m : Machine env} (hestimating : Estimating cfg estimates p fits m)
    {index ambiguity : Nat} {success failure : Point env.Sample}
    (hcounts : Counts cfg (m.search cfg index ambiguity success failure))
    (hworking : m.point.isWorking ∨ success.isWorking = false ∧ failure.isWorking = false) :
    Estimating cfg estimates p fits (m.search cfg index ambiguity success failure) := by
  apply hestimating.of_buffer hcounts
  · rw [search_block, processed_buffer]
  · rw [search_block, processed_snrEst]
  · exact search_received m index ambiguity success failure
  · intro hnext
    rcases search_point cfg m index ambiguity success failure with h | h <;> rw [h] at hnext <;>
      simp_all

theorem Estimating.step {m next : Machine env} {label : Label env.Sample}
    (hestimating : Estimating cfg estimates p fits m) (hassures : Assures estimates p fits)
    (hmoves : Moves cfg m label next) : Estimating cfg estimates p fits next := by
  have hcounts := hestimating.counts.step hmoves
  cases hmoves with
  | call _ hpoint | leave hpoint | serve _ hpoint | finish hpoint | stopServe hpoint
  | flush hpoint =>
      refine hestimating.of_buffer hcounts rfl rfl rfl ?_
      simp [hpoint, Point.isWorking]
  | read rest hrest hpoint => exact hestimating.read hassures hrest hpoint
  | search rest index ambiguity hpoint hindex =>
      exact hestimating.search hcounts (Or.inl (by rw [hpoint]; rfl))
  | advance rest hpoint =>
      have hfull := hestimating.counts.full (by rw [hpoint]; rfl)
      obtain ⟨accepted, hle, hall, hreached⟩ := hestimating.session
      refine ⟨hcounts, hestimating.estimator, accepted, hle,
        fun _ => hall (by rw [hpoint]; rfl), ?_⟩
      intro hstarts
      have hadvance : Session.step (cfg.layout env) ⟨m.block.buffer, accepted⟩ .advance =
          some ⟨m.block.buffer.advance cfg, accepted⟩ :=
        congrArg (Option.map _) (layout_advance _ hfull)
      have hreads : Session.ReadsWith fits .advance := trivial
      exact Transition.Reachable.step (hreached hstarts) hreads hadvance
  | stop hpoint =>
      refine hestimating.beginStop hassures ?_
      rcases hpoint with hpoint | hpoint <;> rw [hpoint] <;> rfl
  | stopSearch maxItems index ambiguity hpoint hindex =>
      exact hestimating.search hcounts (Or.inr ⟨rfl, rfl⟩)

theorem estimating_of_reachable (hassures : Assures estimates p fits)
    {additional : List AsmPosition} {b : Block env} (hb : construct cfg additional = some b)
    {m : Machine env}
    (hreachable : Transition.Reachable (step cfg) (fun _ _ => True) (start b) m) :
    Estimating cfg estimates p fits m :=
  hreachable.invariant (estimating_start hb)
    fun _ _ _ hestimating _ hstep => hestimating.step hassures (moves_of_step hstep)

variable [IsStrictOrderedRing K]

theorem assures_hasEnergies (hroot : RoundsDown estimates.root) :
    Assures estimates (fun _ => True) estimates.HasEnergies := by
  intro est symbols _ _ hestimator
  rw [SnrValues.HasEnergies, estimates.value_getSnr, hestimator]
  exact (averages_update _ _).hasEnergies_getSnr hroot

/-- A symbol that the estimator can tell from zero. -/
def HasPower (estimates : Estimates env K) (symbol : env.Sample) : Prop :=
  power estimates.root (estimates.sample symbol) ≠ 0

theorem assures_hasNoise (hroot : RoundsDown estimates.root) :
    Assures estimates (HasPower estimates) estimates.HasNoise := by
  intro est symbols hne hstarts hestimator
  have haverages := averages_update estimates.root (symbols.map estimates.sample)
  obtain ⟨first, rest, rfl⟩ := List.exists_cons_of_ne_nil hne
  have hpower : 0 < (Estimator.initial.update estimates.root
      ((first :: rest).map estimates.sample)).y1 := by
    rw [y1_pos_iff]
    exact ⟨estimates.sample first, by simp, hstarts first rfl⟩
  rw [SnrValues.HasNoise, estimates.value_getSnr, hestimator]
  exact ⟨_, _, signalLin_nonneg hroot _, (haverages.noiseLin_pos_iff hroot).mpr hpower, rfl⟩

/-- The interpolation around a position that the buffer holds. -/
theorem Estimating.exists_interpolation {q : K → Prop} {m : Machine env}
    (hestimating : Estimating cfg estimates p
      (fun snr => (estimates.value snr).Measured estimates.root q) m)
    (hstarts : StartsWith p m.received) (hreceived : m.received ≠ []) {pos : Nat}
    (hstart : m.block.buffer.offset - cfg.framesBefore * cfg.blockLen ≤ pos)
    (hlast : pos ≤ (cfg.layout env).offsetLastSymbol m.block.buffer) :
    ∃ start stop made, q start ∧ q stop ∧
      (cfg.layout env).snr estimates.toSnrValues m.block.buffer pos = some made ∧
      made.n00 = finite start ∧ made.n0M = finite (stop - start) := by
  obtain ⟨accepted, hle, -, hreached⟩ := hestimating.session
  have haccepted : accepted ≠ [] := by
    rintro rfl
    exact hreceived (List.prefix_nil.mp hle)
  exact (hreached hstarts).exists_interpolation estimates.toSnrValues cfg.blockLen_pos haccepted
    hstart hlast

/-- The interpolation over the symbols of the next read. -/
theorem Estimating.wellDefined_iff {m : Machine env}
    (hestimating : Estimating cfg estimates p estimates.HasNoise m)
    (hassures : Assures estimates p estimates.HasNoise) {rest : List env.Sample}
    (hrest : rest ≠ []) (hpoint : m.point = .loop rest)
    (hstarts : StartsWith p (m.readNext cfg rest).received) :
    estimates.WellDefined ((cfg.layout env).chunkArguments m.block.buffer
        (m.chunk cfg rest) (env.getSnr (m.readNext cfg rest).block.snrEst)) ↔
      2 ≤ (m.chunk cfg rest).length := by
  obtain ⟨accepted, -, hall, hreached⟩ := hestimating.session
  obtain rfl := hall (by rw [hpoint]; rfl)
  have hbefore : StartsWith p m.received := by
    rw [readNext_received_chunk] at hstarts
    exact hstarts.of_append
  have hne : (m.readNext cfg rest).received ≠ [] := by
    rw [readNext_received_chunk]
    exact List.append_ne_nil_of_right_ne_nil _ (chunk_ne_nil hestimating.counts hrest hpoint)
  have hfits : estimates.HasNoise (env.getSnr (m.readNext cfg rest).block.snrEst) :=
    hassures _ _ hne hstarts (readNext_estimator rest hestimating.estimator)
  obtain ⟨numAdvanced, htagged⟩ := (hreached hbefore).tagged cfg.blockLen_pos
  obtain ⟨hfirst, hlast⟩ := htagged.chunkArguments (m.chunk cfg rest)
    (env.getSnr (m.readNext cfg rest).block.snrEst)
  have hall : ((cfg.layout env).chunkArguments m.block.buffer (m.chunk cfg rest)
      (env.getSnr (m.readNext cfg rest).block.snrEst)).blockLength =
        min (m.chunk cfg rest).length
          ((cfg.layout env).bufferLen - m.block.buffer.numItems) :=
    (cfg.layout env).readSignal_snd m.block.buffer (m.chunk cfg rest)
      (env.getSnr (m.readNext cfg rest).block.snrEst)
  rw [estimates.wellDefined_iff hfirst (hlast.symm ▸ hfits), hall, chunk,
    Buffer.numSymbolsMissing_eq, List.length_take]
  change 2 ≤ min _ (cfg.bufferLen - m.block.buffer.numItems) ↔ _
  omega

/-- In every run the block's own estimates make every interpolation that it asks for, and from a
first symbol with power on all of their noise is positive, so that only a read of a single symbol
divides by zero. -/
theorem estimates_assure (estimates : Estimates env K)
    (hroot : RoundsDown estimates.root) {additional : List AsmPosition}
    {b : Block env} (hb : construct cfg additional = some b) {m : Machine env}
    (hreachable : Transition.Reachable (step cfg) (fun _ _ => True) (start b) m) :
    estimates.estimator m.block.snrEst =
        Estimator.initial.update estimates.root (m.received.map estimates.sample) ∧
      (m.received ≠ [] → ∀ pos,
        m.block.buffer.offset - cfg.framesBefore * cfg.blockLen ≤ pos →
        pos ≤ (cfg.layout env).offsetLastSymbol m.block.buffer →
        ∃ start stop made, 0 ≤ start ∧ 0 ≤ stop ∧
          (cfg.layout env).snr estimates.toSnrValues m.block.buffer pos = some made ∧
          made.n00 = finite start ∧ made.n0M = finite (stop - start) ∧
          (StartsWith (HasPower estimates) m.received → 0 < start ∧ 0 < stop)) ∧
      ∀ rest, rest ≠ [] → m.point = .loop rest →
        StartsWith (HasPower estimates) (m.readNext cfg rest).received →
        (estimates.WellDefined ((cfg.layout env).chunkArguments m.block.buffer
            (m.chunk cfg rest) (env.getSnr (m.readNext cfg rest).block.snrEst)) ↔
          2 ≤ (m.chunk cfg rest).length) := by
  have henergies : Estimating cfg estimates (fun _ => True) estimates.HasEnergies m :=
    estimating_of_reachable (assures_hasEnergies hroot) hb hreachable
  have hnoise : Estimating cfg estimates (HasPower estimates) estimates.HasNoise m :=
    estimating_of_reachable (assures_hasNoise hroot) hb hreachable
  refine ⟨henergies.estimator, ?_, ?_⟩
  · intro hreceived pos hstart hlast
    by_cases hstarts : StartsWith (HasPower estimates) m.received
    · obtain ⟨start, stop, made, hpos, hposStop, hmade, hn00, hn0M⟩ :=
        hnoise.exists_interpolation (q := (0 < ·)) hstarts hreceived hstart hlast
      exact ⟨start, stop, made, hpos.le, hposStop.le, hmade, hn00, hn0M, fun _ => ⟨hpos, hposStop⟩⟩
    · obtain ⟨start, stop, made, hnonneg, hnonnegStop, hmade, hn00, hn0M⟩ :=
        henergies.exists_interpolation (q := (0 ≤ ·)) (fun _ _ => trivial) hreceived hstart
          hlast
      exact ⟨start, stop, made, hnonneg, hnonnegStop, hmade, hn00, hn0M,
        fun hpower => absurd hpower hstarts⟩
  · intro rest hrest hpoint hstarts
    exact hnoise.wellDefined_iff (assures_hasNoise hroot) hrest hpoint hstarts

end Machine

/-- The root of a rational number, rounded down to a multiple of one over the denominator. -/
def floorRoot (x : ℚ) : ℚ := (Nat.sqrt (x.num.toNat * x.den) : ℚ) / (x.den : ℚ)

theorem roundsDown_floorRoot : RoundsDown floorRoot where
  nonneg := fun x _ => div_nonneg (Nat.cast_nonneg _) (Nat.cast_nonneg _)
  mul_self_le := by
    intro x hx
    have hden : (0 : ℚ) < x.den := Nat.cast_pos.mpr x.pos
    have hroot : ((Nat.sqrt (x.num.toNat * x.den) : ℚ)) * Nat.sqrt (x.num.toNat * x.den) ≤
        x.num.toNat * x.den := mod_cast Nat.sqrt_le (x.num.toNat * x.den)
    have hnum : ((x.num.toNat : ℤ) : ℚ) = x * x.den := by
      rw [Int.toNat_of_nonneg (Rat.num_nonneg.mpr hx), Rat.mul_den_eq_num]
    rw [floorRoot, div_mul_div_comm, div_le_iff₀ (mul_pos hden hden), ← mul_assoc, ← hnum]
    exact_mod_cast hroot

def realSample (x : Int) : GrComplex ℚ := ⟨x, 0⟩

/-- The exact platform with its own estimator. -/
@[reducible] def estimatingPlatform : Platform :=
  { exactPlatform with
    Estimator := Estimator ℚ
    initialEstimator := .initial
    updateEstimator := fun est input => est.update floorRoot (input.map realSample)
    getSnr := fun est => est.getSnr floorRoot }

def exactEstimates : Estimates estimatingPlatform ℚ where
  value := fun snr => snr
  root := floorRoot
  value_invalid := rfl
  sample := realSample
  estimator := fun est => est
  estimator_initial := rfl
  estimator_update := fun _ _ => rfl
  value_getSnr := fun _ => rfl

/-- A call of `work` with two symbols and the read of these. -/
def estimatingRun : List (Label estimatingPlatform.Sample) := [.work [3, 5], .proceed]

theorem estimates_assure_exact : ∃ m : Machine estimatingPlatform,
    Transition.run (Machine.step shortConfig) (Machine.start (Block.initial shortConfig))
        estimatingRun = some m ∧
      ∃ made start, (shortConfig.layout estimatingPlatform).snr exactEstimates.toSnrValues
          m.block.buffer 1 = some made ∧ made.n00 = finite start ∧ 0 < start := by
  obtain ⟨m, hrun, hreceived, hoffset, hlast⟩ : ∃ m : Machine estimatingPlatform,
      Transition.run (Machine.step shortConfig) (Machine.start (Block.initial shortConfig))
          estimatingRun = some m ∧ m.received = [3, 5] ∧ m.block.buffer.offset = 0 ∧
        (shortConfig.layout estimatingPlatform).offsetLastSymbol m.block.buffer = 1 :=
    ⟨_, rfl, rfl, rfl, rfl⟩
  have hne : m.received ≠ [] := by
    rw [hreceived]
    exact List.cons_ne_nil _ _
  have hpower : Machine.StartsWith (Machine.HasPower exactEstimates) m.received := by
    rw [hreceived]
    rintro _ ⟨⟩
    change power floorRoot (realSample 3) ≠ 0
    decide +kernel
  have hb : construct shortConfig [] =
      some (Block.initial shortConfig : Block estimatingPlatform) := rfl
  obtain ⟨-, hheld, -⟩ := Machine.estimates_assure exactEstimates roundsDown_floorRoot hb
    (Transition.reachable_of_run hrun)
  obtain ⟨start, _, made, -, -, hmade, hn00, -, hpos⟩ :=
    hheld hne 1 (by rw [hoffset]; decide) hlast.ge
  exact ⟨m, hrun, made, start, hmade, hn00, (hpos hpower).1⟩

end GrCcsds.FrameSync
