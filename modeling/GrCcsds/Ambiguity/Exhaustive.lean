import GrCcsds.Ambiguity.Messages
import GrCcsds.Arithmetic
import GrCcsds.Foundation.FirstMaximum
import Mathlib.Data.Rat.Floor

/-! # The search as an exhaustive search

In exact arithmetic no correlation exceeds one, so that the search may stop at
a correlation of one. It selects the first of the best candidates, and a search
that finds nothing has tested every position that it consumes.
-/

namespace GrCcsds.Ambiguity

open Utils Foundation

section Loops

variable {R : Type} [Arithmetic R]

/-- The ASM as the constructor takes it from the bytes of the sync marker. -/
def asmOfBytes (bytes : Nat → Nat) (i : Nat) : R :=
  if bytes (i / 8) >>> (7 - i % 8) &&& 1 = 1 then 1 else -1

/-- Every bit of the ASM has an entry 1 or -1. -/
def Config.Bipolar (cfg : Config R) : Prop :=
  ∀ i < cfg.asmLenBits, cfg.asm i = 1 ∨ cfg.asm i = -1

theorem bipolar_of_bytes {cfg : Config R} (bytes : Nat → Nat) (hasm : cfg.asm = asmOfBytes bytes) :
    cfg.Bipolar := by
  intro i _
  rw [hasm, asmOfBytes]
  split
  · exact Or.inl rfl
  · exact Or.inr rfl

omit [Arithmetic R] in
theorem mem_offsets {cfg : Config R} {searchLen offset : Nat} :
    offset ∈ List.range (searchLen - cfg.asmLenBits + 1) ↔ offset ≤ searchLen - cfg.asmLenBits := by
  rw [List.mem_range, Nat.lt_succ_iff]

variable (cfg : Config R)

/-- The correlation of an offset in an ambiguity. -/
def candidate (input : Nat → R) (searchLen ambiguity offset : Nat) : R :=
  checkForAsm cfg (convertAmbiguity cfg.ldM input searchLen ambiguity) offset

/-- The number of bits that an iteration searches. -/
def Config.searchLen (numInput numConsumed : Nat) : Nat :=
  cfg.lower (min (numInput - numConsumed) cfg.searchLenMax)

omit [Arithmetic R] in
theorem searchLen_dvd (numInput numConsumed : Nat) : cfg.ldM ∣ cfg.searchLen numInput numConsumed :=
  getLowerMul_dvd _ _

omit [Arithmetic R] in
/-- The input of an iteration. -/
def Machine.window (stream : Nat → R) (m : Machine R) (numConsumed : Nat) : Nat → R :=
  fun i => stream (m.nitemsRead + numConsumed + i)

/-- The match that an iteration in search selects. -/
def Machine.selected (stream : Nat → R) (m : Machine R) (numInput numConsumed : Nat) : Best R :=
  searchStreams cfg (m.window stream numConsumed) (cfg.searchLen numInput numConsumed)
    (List.range cfg.order)
    { correlation := -1, ambiguity := 0, offsetBits := m.resolver.offsetBits }

/-- A step of a run that stays in search. -/
def Machine.Searching (stream : Nat → R) (m : Machine R) (_ : Label) : Prop :=
  m.resolver.state = .search ∧
    ∀ numInput numConsumed, m.point = .loop numInput numConsumed →
      cfg.searchLenMin ≤ numInput - numConsumed →
      ¬ cfg.correlationThreshold < (m.selected cfg stream numInput numConsumed).correlation

variable {cfg} {stream : Nat → R} {tags : List (Tag R)}

/-- A match above the threshold is what the block locks on. -/
theorem Machine.searchStep_found {m : Machine R} {numInput numConsumed : Nat}
    (hfound : cfg.correlationThreshold < (m.selected cfg stream numInput numConsumed).correlation) :
    (m.searchStep cfg stream numInput numConsumed).log = m.log ++ [.locked
      (m.nitemsRead + numConsumed + (m.selected cfg stream numInput numConsumed).offsetBits +
        cfg.asmLenBits)
      (m.selected cfg stream numInput numConsumed).ambiguity (m.resolver.frameCount + 1)
      (m.selected cfg stream numInput numConsumed).correlation] := by
  unfold searchStep
  exact congrArg Machine.log (if_pos hfound)

/-- A step that stays in search consumes nothing or what it has searched. -/
theorem Machine.Searching.base_cases {m next : Machine R} {label : Label}
    (hsearching : m.Searching cfg stream label)
    (hstep : m.step cfg stream tags label = some next) :
    next.base = m.base ∨ ∃ numInput numConsumed, m.point = .loop numInput numConsumed ∧
      cfg.searchLenMin ≤ numInput - numConsumed ∧
      next.base = m.base +
        cfg.lower (cfg.searchLen numInput numConsumed - (cfg.asmLenBits - 1)) := by
  unfold step at hstep
  split at hstep
  next numInput hpoint =>
    cases hstep
    left
    simp [base, hpoint, Point.numConsumed]
  next numInput numConsumed hpoint =>
    rw [hsearching.1] at hstep
    dsimp only at hstep
    split at hstep
    next =>
      cases hstep
      left
      simp [base, Machine.finish, hpoint, Point.numConsumed]
    next havailable =>
      have henough := Nat.le_of_not_lt havailable
      have hnone := hsearching.2 numInput numConsumed hpoint henough
      cases hstep
      right
      refine ⟨numInput, numConsumed, hpoint, henough, ?_⟩
      rw [base_of_loop hpoint]
      unfold searchStep
      change base (if cfg.correlationThreshold <
        (m.selected cfg stream numInput numConsumed).correlation then _ else _) = _
      rw [if_neg hnone, Nat.add_assoc]
      rfl
  next => cases hstep

end Loops

section Exact

variable {K : Type} [Field K] [LinearOrder K] [IsStrictOrderedRing K] [FloorRing K]

open scoped ExactNumbers

variable {cfg : Config K}

theorem magnitude_eq_abs (x : K) : magnitude x = |x| := by
  unfold magnitude
  split
  next hneg => exact (abs_of_neg hneg).symm
  next hpos => exact (abs_of_nonneg (not_lt.mp hpos)).symm

/-- A correlation with entries of magnitude one is at most the sum of the magnitudes. -/
theorem foldl_correlation_le (asm bits : Nat → K) (indices : List Nat)
    (hasm : ∀ i ∈ indices, asm i = 1 ∨ asm i = -1) {low high : K} (hle : low ≤ high) :
    indices.foldl (fun sum i => sum + asm i * bits i) low ≤
      indices.foldl (fun sum i => sum + magnitude (bits i)) high := by
  induction indices generalizing low high with
  | nil => exact hle
  | cons i rest ih =>
      apply ih (fun j hj => hasm j (List.mem_cons_of_mem _ hj))
      apply add_le_add hle
      rw [magnitude_eq_abs]
      rcases hasm i List.mem_cons_self with h | h
      · rw [h, one_mul]
        exact le_abs_self _
      · rw [h, neg_one_mul]
        exact neg_le_abs _

theorem checkForAsm_le_one (hasm : cfg.Bipolar) (input : Nat → K) (offset : Nat) :
    checkForAsm cfg input offset ≤ 1 := by
  have hpos : (0 : K) < (cfg.asmLenBits : K) := Nat.cast_pos.mpr cfg.asmLenBits_pos
  have hsum := foldl_correlation_le cfg.asm (fun i => input (i + offset))
    (List.range cfg.asmLenBits) (fun i hi => hasm i (List.mem_range.mp hi)) (le_refl 0)
  unfold checkForAsm
  dsimp only
  unfold pickLarger
  split
  next hlonger => exact div_le_one_of_le₀ hsum (hpos.le.trans hlonger.le)
  next hshorter => exact div_le_one_of_le₀ (hsum.trans (not_lt.mp hshorter)) hpos.le

omit [IsStrictOrderedRing K] in
theorem searchOffsets_eq_scan (input : Nat → K) (offsets : List Nat) (best : K × Nat) :
    searchOffsets cfg input offsets best =
      FirstMaximum.scan (checkForAsm cfg input) (fun i => i) 1 offsets best := by
  induction offsets generalizing best with
  | nil => rfl
  | cons i rest ih =>
      rw [searchOffsets, FirstMaximum.scan, ih, ih]

omit [IsStrictOrderedRing K] in
theorem searchStreams_eq_scan (input : Nat → K) (searchLen : Nat) (ambiguities : List Nat)
    (best : Best K) :
    searchStreams cfg input searchLen ambiguities best =
      match FirstMaximum.scan
        (fun i => (searchForAsm cfg (convertAmbiguity cfg.ldM input searchLen i) searchLen).1)
        (fun i => (i, (searchForAsm cfg (convertAmbiguity cfg.ldM input searchLen i) searchLen).2))
        1 ambiguities (best.correlation, (best.ambiguity, best.offsetBits)) with
      | (correlation, (ambiguity, offsetBits)) => ⟨correlation, ambiguity, offsetBits⟩ := by
  induction ambiguities generalizing best with
  | nil => rfl
  | cons i rest ih =>
      simp only [searchStreams, FirstMaximum.scan, ih]
      split
      · split <;> rfl
      · rfl

/-- The first of the best candidates in the order of the loops. -/
structure FirstBest (cfg : Config K) (input : Nat → K) (searchLen : Nat) (best : Best K) :
    Prop where
  ambiguity_lt : best.ambiguity < cfg.order
  offset_le : best.offsetBits ≤ searchLen - cfg.asmLenBits
  correlation : best.correlation =
    candidate cfg input searchLen best.ambiguity best.offsetBits
  maximum : ∀ ambiguity < cfg.order, ∀ offset ≤ searchLen - cfg.asmLenBits,
    candidate cfg input searchLen ambiguity offset ≤ best.correlation
  first : ∀ ambiguity < cfg.order, ∀ offset ≤ searchLen - cfg.asmLenBits,
    ambiguity < best.ambiguity ∨ ambiguity = best.ambiguity ∧ offset < best.offsetBits →
      candidate cfg input searchLen ambiguity offset < best.correlation

/-- The search in one ambiguity is at least as good as each of its candidates. -/
theorem candidate_le_searchForAsm (hasm : cfg.Bipolar) (input : Nat → K)
    {searchLen ambiguity offset : Nat} (hoffset : offset ≤ searchLen - cfg.asmLenBits) :
    candidate cfg input searchLen ambiguity offset ≤
      (searchForAsm cfg (convertAmbiguity cfg.ldM input searchLen ambiguity) searchLen).1 := by
  rw [searchForAsm, searchOffsets_eq_scan]
  have hbound : ∀ i ∈ List.range (searchLen - cfg.asmLenBits + 1),
      checkForAsm cfg (convertAmbiguity cfg.ldM input searchLen ambiguity) i ≤ 1 :=
    fun i _ => checkForAsm_le_one hasm _ i
  exact FirstMaximum.score_le_scan hbound (-1, 0) offset (mem_offsets.mpr hoffset)

omit [IsStrictOrderedRing K] in
/-- A match in one ambiguity is the first of the best offsets. -/
theorem searchForAsm_first (cfg : Config K) (input : Nat → K) (numIn : Nat)
    (hfound : -1 < (searchForAsm cfg input numIn).1) :
    ∃ offset ≤ numIn - cfg.asmLenBits,
      searchForAsm cfg input numIn = (checkForAsm cfg input offset, offset) ∧
      ∀ i ≤ numIn - cfg.asmLenBits, i < offset →
        checkForAsm cfg input i < checkForAsm cfg input offset := by
  have hbetter : ∃ i ∈ List.range (numIn - cfg.asmLenBits + 1),
      (-1 : K) < checkForAsm cfg input i := by
    rcases searchOffsets_cases cfg input (List.range (numIn - cfg.asmLenBits + 1)) (-1, 0) with
      h | ⟨i, hi, h⟩
    · rw [searchForAsm, h] at hfound
      exact absurd hfound (lt_irrefl _)
    · rw [searchForAsm, h] at hfound
      exact ⟨i, hi, hfound⟩
  obtain ⟨offset, hoffset, hscan, -, hbefore⟩ := FirstMaximum.scan_first (fun i => i) 1
    List.pairwise_lt_range (-1, 0) hbetter
  refine ⟨offset, mem_offsets.mp hoffset, ?_, ?_⟩
  · rw [searchForAsm, searchOffsets_eq_scan]
    exact hscan
  · intro i hi hless
    exact hbefore i (mem_offsets.mpr hi) hless

theorem searchForAsm_le_one (hasm : cfg.Bipolar) (input : Nat → K) (numIn : Nat) :
    (searchForAsm cfg input numIn).1 ≤ 1 := by
  rcases searchOffsets_cases cfg input (List.range (numIn - cfg.asmLenBits + 1)) (-1, 0) with
    h | ⟨i, -, h⟩
  · rw [searchForAsm, h]
    exact neg_le_self zero_le_one
  · rw [searchForAsm, h]
    exact checkForAsm_le_one hasm input i

/-- The selected match is at least as good as the match in each ambiguity. -/
theorem searchForAsm_le_searchStreams (hasm : cfg.Bipolar) (input : Nat → K) (searchLen : Nat)
    (best : Best K) {ambiguity : Nat} (hambiguity : ambiguity < cfg.order) :
    (searchForAsm cfg (convertAmbiguity cfg.ldM input searchLen ambiguity) searchLen).1 ≤
      (searchStreams cfg input searchLen (List.range cfg.order) best).correlation := by
  rw [searchStreams_eq_scan]
  exact FirstMaximum.score_le_scan (fun _ _ => searchForAsm_le_one hasm _ _) _ _
    (List.mem_range.mpr hambiguity)

/-- The selected match is at least as good as every candidate. -/
theorem candidate_le_searchStreams (hasm : cfg.Bipolar) (input : Nat → K) (searchLen : Nat)
    (best : Best K) {ambiguity offset : Nat} (hambiguity : ambiguity < cfg.order)
    (hoffset : offset ≤ searchLen - cfg.asmLenBits) :
    candidate cfg input searchLen ambiguity offset ≤
      (searchStreams cfg input searchLen (List.range cfg.order) best).correlation := by
  exact (candidate_le_searchForAsm hasm input hoffset).trans
    (searchForAsm_le_searchStreams hasm input searchLen best hambiguity)

/-- With a candidate above -1 the two loops select the first of the best candidates. -/
theorem searchStreams_firstBest (hasm : cfg.Bipolar) (input : Nat → K) (searchLen : Nat)
    {start : Best K} (hstart : start.correlation = -1)
    (hcandidate : ∃ ambiguity < cfg.order, ∃ offset ≤ searchLen - cfg.asmLenBits,
      -1 < candidate cfg input searchLen ambiguity offset) :
    FirstBest cfg input searchLen
      (searchStreams cfg input searchLen (List.range cfg.order) start) := by
  have hmaximum : ∀ ambiguity < cfg.order, ∀ offset ≤ searchLen - cfg.asmLenBits,
      candidate cfg input searchLen ambiguity offset ≤
        (searchStreams cfg input searchLen (List.range cfg.order) start).correlation :=
    fun _ hambiguity _ hoffset =>
      candidate_le_searchStreams hasm input searchLen start hambiguity hoffset
  obtain ⟨ambiguity, hambiguity, offset, hoffset, habove⟩ := hcandidate
  have hbetter : ∃ i ∈ List.range cfg.order, start.correlation <
      (searchForAsm cfg (convertAmbiguity cfg.ldM input searchLen i) searchLen).1 := by
    refine ⟨ambiguity, List.mem_range.mpr hambiguity, ?_⟩
    rw [hstart]
    exact habove.trans_le (candidate_le_searchForAsm hasm input hoffset)
  -- the outer loop keeps the first ambiguity whose own best match is the greatest
  obtain ⟨found, hfound, hscan, hgreater, hbefore⟩ := FirstMaximum.scan_first
    (fun i => (i, (searchForAsm cfg (convertAmbiguity cfg.ldM input searchLen i) searchLen).2)) 1
    List.pairwise_lt_range (start.correlation, (start.ambiguity, start.offsetBits)) hbetter
  -- in this ambiguity the inner loop keeps the first of the best offsets
  obtain ⟨best, hbest, hinner, hfirst⟩ := searchForAsm_first cfg
    (convertAmbiguity cfg.ldM input searchLen found) searchLen (hstart ▸ hgreater)
  have hselected : searchStreams cfg input searchLen (List.range cfg.order) start =
      ⟨candidate cfg input searchLen found best, found, best⟩ := by
    rw [searchStreams_eq_scan, hscan, hinner]
    rfl
  rw [hselected] at hmaximum ⊢
  refine ⟨List.mem_range.mp hfound, hbest, rfl, hmaximum, ?_⟩
  rintro i hi j hj (hless | ⟨rfl, hless⟩)
  · have hscore := hbefore i (List.mem_range.mpr hi) hless
    rw [hinner] at hscore
    exact (candidate_le_searchForAsm hasm input hj).trans_lt hscore
  · exact hfirst j hj hless

/-- The candidates that the two loops of a search correlate, as ambiguity and offset. -/
def tested (cfg : Config K) (input : Nat → K) (searchLen : Nat) : List (Nat × Nat) :=
  (FirstMaximum.visited
    (fun i => (searchForAsm cfg (convertAmbiguity cfg.ldM input searchLen i) searchLen).1) 1
    (List.range cfg.order) (-1)).flatMap fun ambiguity =>
      (FirstMaximum.visited (candidate cfg input searchLen ambiguity) 1
        (List.range (searchLen - cfg.asmLenBits + 1)) (-1)).map fun offset => (ambiguity, offset)

/-- A search without a match above a threshold below one has tested every candidate. -/
theorem mem_tested (hasm : cfg.Bipolar) (input : Nat → K) {searchLen : Nat} {start : Best K}
    (hstart : start.correlation = -1)
    (hbelow : (searchStreams cfg input searchLen (List.range cfg.order) start).correlation < 1)
    {ambiguity offset : Nat} (hambiguity : ambiguity < cfg.order)
    (hoffset : offset ≤ searchLen - cfg.asmLenBits) :
    (ambiguity, offset) ∈ tested cfg input searchLen := by
  have hinner :=
    (searchForAsm_le_searchStreams hasm input searchLen start hambiguity).trans_lt hbelow
  rw [searchForAsm, searchOffsets_eq_scan] at hinner
  rw [searchStreams_eq_scan] at hbelow
  -- no correlation reaches one, so neither loop stops early
  have houter := FirstMaximum.visited_eq hbelow
  rw [hstart] at houter
  unfold tested
  rw [houter, List.mem_flatMap]
  refine ⟨ambiguity, List.mem_range.mpr hambiguity, ?_⟩
  have hvisited : FirstMaximum.visited (candidate cfg input searchLen ambiguity) 1
      (List.range (searchLen - cfg.asmLenBits + 1)) (-1) =
      List.range (searchLen - cfg.asmLenBits + 1) := FirstMaximum.visited_eq hinner
  rw [hvisited]
  exact List.mem_map_of_mem (mem_offsets.mpr hoffset)

/-- A position that an iteration in search consumes has been tested in every ambiguity. -/
theorem Machine.Searching.tested {m : Machine K} {stream : Nat → K} {label : Label}
    (hasm : cfg.Bipolar) (hthreshold : cfg.correlationThreshold < 1)
    (hsearching : m.Searching cfg stream label) (haligned : cfg.ldM ∣ m.base)
    {numInput numConsumed : Nat} (hpoint : m.point = .loop numInput numConsumed)
    (havailable : cfg.searchLenMin ≤ numInput - numConsumed) {p : Nat} (hbase : m.base ≤ p)
    (hp : p < m.base + cfg.lower (cfg.searchLen numInput numConsumed - (cfg.asmLenBits - 1)))
    {ambiguity : Nat} (hambiguity : ambiguity < cfg.order) :
    (ambiguity, p - m.base) ∈
        tested cfg (m.window stream numConsumed) (cfg.searchLen numInput numConsumed) ∧
      checkForAsm cfg (converted cfg stream ambiguity) p ≤ cfg.correlationThreshold := by
  have hnone := not_lt.mp (hsearching.2 numInput numConsumed hpoint havailable)
  have hlen := asmLenBits_le_searchLen havailable
  have hsum := getLowerMul_add_mod cfg.ldM
    (cfg.searchLen numInput numConsumed - (cfg.asmLenBits - 1))
  have hpos := cfg.asmLenBits_pos
  change cfg.asmLenBits ≤ cfg.searchLen numInput numConsumed at hlen
  -- what is consumed leaves the last positions at which an ASM can still start
  have hoffset : p - m.base ≤ cfg.searchLen numInput numConsumed - cfg.asmLenBits := by
    unfold Config.lower at hp
    omega
  refine ⟨mem_tested hasm _ rfl (hnone.trans_lt hthreshold) hambiguity hoffset, ?_⟩
  have hcorrelation := candidate_le_searchStreams hasm (m.window stream numConsumed)
    (cfg.searchLen numInput numConsumed)
    { correlation := -1, ambiguity := 0, offsetBits := m.resolver.offsetBits } hambiguity hoffset
  refine le_trans (le_of_eq ?_) (hcorrelation.trans hnone)
  symm
  apply checkForAsm_congr
  intro i hi
  have hwindow : m.window stream numConsumed = fun i => stream (m.base + i) := by
    rw [base_of_loop hpoint]
    rfl
  rw [hwindow, convertAmbiguity_input haligned (searchLen_dvd cfg _ _) ambiguity (by omega)]
  congr 1
  omega

/-- The search selects the first of the best candidates, and every position that a run in
search consumes has been tested before. -/
theorem search_exhaustive (hasm : cfg.Bipolar) (hthreshold : cfg.correlationThreshold < 1) :
    (∀ (stream : Nat → K) (m : Machine K) (numInput numConsumed : Nat),
      (∃ ambiguity < cfg.order,
        ∃ offset ≤ cfg.searchLen numInput numConsumed - cfg.asmLenBits,
          -1 < candidate cfg (m.window stream numConsumed)
            (cfg.searchLen numInput numConsumed) ambiguity offset) →
      FirstBest cfg (m.window stream numConsumed) (cfg.searchLen numInput numConsumed)
        (m.selected cfg stream numInput numConsumed)) ∧
    ∀ (stream : Nat → K) (tags : List (Tag K)) (first last : Machine K),
      Transition.Reachable (Machine.step cfg stream tags) (fun _ _ => True) .start first →
      Transition.Reachable (Machine.step cfg stream tags) (Machine.Searching cfg stream) first last →
      ∀ p, first.base ≤ p → p < last.base → ∃ (s : Machine K) (numInput numConsumed : Nat),
        Transition.Reachable (Machine.step cfg stream tags) (Machine.Searching cfg stream) first s ∧
        Transition.Reachable (Machine.step cfg stream tags) (Machine.Searching cfg stream) s last ∧
        s.point = .loop numInput numConsumed ∧ s.base ≤ p ∧
        ∀ ambiguity < cfg.order,
          (ambiguity, p - s.base) ∈
            tested cfg (s.window stream numConsumed) (cfg.searchLen numInput numConsumed) ∧
          checkForAsm cfg (converted cfg stream ambiguity) p ≤ cfg.correlationThreshold := by
  refine ⟨?_, ?_⟩
  · intro stream m numInput numConsumed hcandidate
    exact searchStreams_firstBest hasm _ _ rfl hcandidate
  · intro stream tags first last hfirst hrun
    induction hrun with
    | refl =>
        intro p hle hlt
        exact absurd hlt (Nat.not_lt_of_ge hle)
    | @step m next label hbefore hsearching hstep ih =>
        intro p hle hlt
        by_cases hold : p < m.base
        · obtain ⟨s, numInput, numConsumed, hreached, hrest, htested⟩ := ih p hle hold
          exact ⟨s, numInput, numConsumed, hreached, hrest.step hsearching hstep, htested⟩
        · have htracks : Machine.Tracks cfg stream tags m :=
            hbefore.invariant (Machine.tracks_of_reachable hfirst)
              fun _ _ _ htracks _ hstep => htracks.step hstep
          -- a new position is consumed by the last step, which has searched it
          rcases hsearching.base_cases hstep with hsame | ⟨numInput, numConsumed, hpoint, havailable,
            hbase⟩
          · omega
          · have hm := Nat.le_of_not_lt hold
            refine ⟨m, numInput, numConsumed, hbefore,
              Transition.Reachable.refl.step hsearching hstep, hpoint, hm, ?_⟩
            intro ambiguity hambiguity
            exact hsearching.tested hasm hthreshold htracks.aligned hpoint havailable hm
              (hbase ▸ hlt) hambiguity

/-- BPSK with an ASM of two bits. -/
def twoBitConfig : Config ℚ where
  ldM := 1
  ldM_pos := bitConfig.ldM_pos
  ldM_le := bitConfig.ldM_le
  asm := asmOfBytes fun _ => 0x80
  asmLenBits := 2
  asmLenBits_pos := by decide
  threshold := 2
  correlationThreshold := 1 / 2
  frameLenBits := 8
  le_frameLenBits := bitConfig.le_frameLenBits
  numTailSyms := 0

/-- The first match of a stream, and a run that consumes silence. -/
theorem search_exhaustive_silence :
    (∃ best : Best ℚ, FirstBest twoBitConfig
      (Machine.start.window (fun i => [1, 1, -1, 1, 1].getD i 0) 0) (twoBitConfig.searchLen 5 0)
        best ∧ best.ambiguity = 0) ∧
    ∃ (s : Machine ℚ) (numInput numConsumed : Nat),
      (1, 3 - s.base) ∈ tested twoBitConfig (s.window (fun _ => 0) numConsumed)
        (twoBitConfig.searchLen numInput numConsumed) := by
  have hasm : twoBitConfig.Bipolar := bipolar_of_bytes (fun _ => 0x80) rfl
  obtain ⟨hselect, hrun⟩ := search_exhaustive hasm (by decide +kernel)
  refine ⟨⟨_, hselect _ Machine.start 5 0 ⟨0, by decide, 0, by decide, by decide +kernel⟩,
    by decide +kernel⟩, ?_⟩
  let called : Machine ℚ := { Machine.start with point := .loop 12 0 }
  have hcall : Machine.step twoBitConfig (fun _ => 0) [] .start (.work 12) = some called := rfl
  have hsearch : Machine.step twoBitConfig (fun _ => 0) [] called .proceed =
      some (called.searchStep twoBitConfig (fun _ => 0) 12 0) := rfl
  have hidle : Machine.start.Searching twoBitConfig (fun _ => 0) (.work 12) :=
    ⟨rfl, fun _ _ hpoint => by cases hpoint⟩
  have hsilent : called.Searching twoBitConfig (fun _ => 0) .proceed := by
    refine ⟨rfl, ?_⟩
    intro numInput numConsumed hpoint _
    cases hpoint
    decide +kernel
  obtain ⟨s, numInput, numConsumed, -, -, -, -, htested⟩ :=
    hrun (fun _ => 0) [] .start _ .refl ((Transition.Reachable.refl.step hidle hcall).step hsilent
      hsearch) 3 (by decide) (by decide +kernel)
  exact ⟨s, numInput, numConsumed, (htested 1 (by decide)).1⟩

end Exact

end GrCcsds.Ambiguity
