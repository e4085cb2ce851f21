import GrCcsds.Ambiguity.Exhaustive
import GrCcsds.Ambiguity.Rotation
import GrCcsds.Ambiguity.TagReads

/-! # The loop of the resolver ends

An iteration consumes input or comes closer to one that does: a check of the
ASM is followed by a search or by an empty buffer, and a partly filled buffer
may be completed by the rest of a symbol. Within the loop, no unsigned
difference wraps and no array is accessed behind its end.
-/

namespace GrCcsds.Ambiguity

open Utils Foundation

variable {R : Type}

/-- The operands of an unsigned difference. -/
structure Difference where
  minuend : Nat
  subtrahend : Nat
deriving DecidableEq, Repr

/-- The difference does not wrap. -/
def Difference.Exact (d : Difference) : Prop := d.subtrahend ≤ d.minuend

/-- An access to an array of some length. -/
structure Access where
  index : Nat
  length : Nat
deriving DecidableEq, Repr

def Access.Inside (a : Access) : Prop := a.index < a.length

section Iterations

variable [Arithmetic R] (cfg : Config R)

/-- The differences in `convert_ambiguity`. -/
def convertDifferences (input : Nat → R) (numBits ambiguity : Nat) : List Difference :=
  if ambiguity = 0 then []
  else
    (List.range (cfg.lower numBits / cfg.ldM)).flatMap fun i =>
      ⟨cfg.order + symbolIndex cfg.ldM input i, ambiguity⟩ ::
        (List.range cfg.ldM).map fun _ => ⟨8, cfg.ldM⟩

omit [Arithmetic R] in
/-- `convert_ambiguity` reads a part of the input and writes to an array of `numBits`. -/
def convertAccesses (start numInput numBits ambiguity : Nat) : List Access :=
  if ambiguity = 0 then
    (List.range numBits).flatMap fun p => [⟨start + p, numInput⟩, ⟨p, numBits⟩]
  else
    (List.range (cfg.lower numBits / cfg.ldM)).flatMap fun i =>
      (List.range cfg.ldM).flatMap fun j =>
        [⟨start + (cfg.ldM * i + j), numInput⟩, ⟨i * cfg.ldM + j, numBits⟩]

omit [Arithmetic R] in
/-- `check_for_ASM` reads the bits under the ASM. -/
def checkAccesses (numIn offset : Nat) : List Access :=
  (List.range cfg.asmLenBits).map fun i => ⟨i + offset, numIn⟩

omit [Arithmetic R] in
def searchAccesses (numInput numConsumed : Nat) : List Access :=
  let searchLen := cfg.searchLen numInput numConsumed
  if numInput - numConsumed < cfg.searchLenMin then []
  else
    (List.range cfg.order).flatMap fun i =>
      convertAccesses cfg numConsumed numInput searchLen i ++
        (List.range (searchLen - cfg.asmLenBits + 1)).flatMap (checkAccesses cfg searchLen)

namespace Machine

variable (stream : Nat → R) (m : Machine R)

/-- The differences of an iteration in search. All ambiguities are listed, and both outcomes. -/
def searchDifferences (numInput numConsumed : Nat) : List Difference :=
  let searchLen := cfg.searchLen numInput numConsumed
  ⟨numInput, numConsumed⟩ ::
    if numInput - numConsumed < cfg.searchLenMin then []
    else
      (List.range cfg.order).flatMap (fun i =>
        convertDifferences cfg (m.window stream numConsumed) searchLen i ++
          [⟨searchLen, cfg.asmLenBits⟩]) ++
        [⟨cfg.asmLenBits, 1⟩, ⟨searchLen, cfg.asmLenBits - 1⟩]

/-- The differences of an iteration that fills the buffer. The last one belongs to a
message. -/
def fillDifferences (numInput numConsumed : Nat) : List Difference :=
  let s := m.resolver
  let toBuffer := s.toBuffer cfg (numInput - numConsumed)
  let toCopy := s.toCopy cfg (numInput - numConsumed)
  [⟨numInput, numConsumed⟩, ⟨cfg.messageLen, s.msgBufferCount⟩] ++
    convertDifferences cfg (m.window stream numConsumed) toBuffer s.lockedOnStream ++
    [⟨cfg.messageLen, s.msgBufferCount⟩, ⟨toBuffer, s.offsetBits⟩] ++
    if s.msgBufferCount + toCopy ≥ cfg.messageLen then
      [⟨m.nitemsRead + (numConsumed + cfg.lower (toCopy + s.offsetBits)) +
        (toCopy + s.offsetBits) % cfg.ldM, cfg.messageLen⟩]
    else []

omit [Arithmetic R] in
def fillAccesses (numInput numConsumed : Nat) : List Access :=
  let s := m.resolver
  let toBuffer := s.toBuffer cfg (numInput - numConsumed)
  let toCopy := s.toCopy cfg (numInput - numConsumed)
  convertAccesses cfg numConsumed numInput toBuffer s.lockedOnStream ++
    (List.range toCopy).flatMap fun i =>
      [⟨i + s.offsetBits, toBuffer⟩, ⟨s.msgBufferCount + i, cfg.messageLen⟩]

/-- The differences of an iteration that checks for an ASM. -/
def checkDifferences (numInput numConsumed : Nat) : List Difference :=
  let s := m.resolver
  ⟨numInput, numConsumed⟩ ::
    convertDifferences cfg (m.window stream numConsumed) (s.checkLen cfg) s.lockedOnStream ++
    if s.count > 1 then [⟨s.count, 1⟩] else []

/-- The differences of the next iteration. -/
def differences : List Difference :=
  match m.point with
  | .loop numInput numConsumed =>
    match m.resolver.state with
    | .search => m.searchDifferences cfg stream numInput numConsumed
    | .lock =>
      if numInput - numConsumed < m.resolver.checkLen cfg then [⟨numInput, numConsumed⟩]
      else if m.resolver.msgBufferFill then m.fillDifferences cfg stream numInput numConsumed
      else m.checkDifferences cfg stream numInput numConsumed
  | _ => []

omit [Arithmetic R] in
/-- The accesses of the next iteration to its input, its temporary array and the buffer. -/
def accesses : List Access :=
  match m.point with
  | .loop numInput numConsumed =>
    match m.resolver.state with
    | .search => searchAccesses cfg numInput numConsumed
    | .lock =>
      if numInput - numConsumed < m.resolver.checkLen cfg then []
      else if m.resolver.msgBufferFill then m.fillAccesses cfg numInput numConsumed
      else
        convertAccesses cfg numConsumed numInput (m.resolver.checkLen cfg)
            m.resolver.lockedOnStream ++
          checkAccesses cfg (m.resolver.checkLen cfg) m.resolver.offsetBits
  | _ => []

omit [Arithmetic R] in
/-- The assertions of the next iteration. -/
def Asserts : Prop :=
  ∀ numInput numConsumed, m.point = .loop numInput numConsumed → m.resolver.state = .lock →
    m.resolver.msgBufferFill = true → m.resolver.checkLen cfg ≤ numInput - numConsumed →
    0 < m.resolver.toBuffer cfg (numInput - numConsumed) ∧
      0 < m.resolver.toCopy cfg (numInput - numConsumed)

end Machine

end Iterations

section Checks

variable [Arithmetic R] {cfg : Config R}

theorem convertDifferences_exact {ambiguity : Nat} (hambiguity : ambiguity < cfg.order)
    (input : Nat → R) (numBits : Nat) :
    ∀ d ∈ convertDifferences cfg input numBits ambiguity, d.Exact := by
  intro d hd
  unfold convertDifferences at hd
  split at hd
  · exact absurd hd List.not_mem_nil
  · obtain ⟨symbol, _, hd⟩ := List.mem_flatMap.mp hd
    rcases List.mem_cons.mp hd with rfl | hd
    · exact Nat.le_add_right_of_le hambiguity.le
    · obtain ⟨_, _, rfl⟩ := List.mem_map.mp hd
      exact cfg.ldM_le

omit [Arithmetic R] in
theorem convertAccesses_inside {start numInput numBits : Nat} (hdvd : cfg.ldM ∣ numBits)
    (hinput : start + numBits ≤ numInput) (ambiguity : Nat) :
    ∀ a ∈ convertAccesses cfg start numInput numBits ambiguity, a.Inside := by
  have hpair : ∀ p < numBits, ∀ a ∈ [Access.mk (start + p) numInput, ⟨p, numBits⟩], a.Inside := by
    intro p hp a ha
    simp only [List.mem_cons, List.not_mem_nil, or_false] at ha
    rcases ha with rfl | rfl
    · exact Nat.lt_of_lt_of_le (Nat.add_lt_add_left hp start) hinput
    · exact hp
  intro a ha
  unfold convertAccesses at ha
  split at ha
  · obtain ⟨p, hp, ha⟩ := List.mem_flatMap.mp ha
    exact hpair p (List.mem_range.mp hp) a ha
  · obtain ⟨symbol, hsymbol, ha⟩ := List.mem_flatMap.mp ha
    obtain ⟨j, hj, ha⟩ := List.mem_flatMap.mp ha
    rw [List.mem_range, Config.lower, getLowerMul_of_dvd hdvd,
      Nat.lt_div_iff_mul_lt' hdvd] at hsymbol
    rw [Nat.mul_comm symbol] at ha
    exact hpair _ (position_lt hdvd hsymbol (List.mem_range.mp hj)) a ha

omit [Arithmetic R] in
theorem checkAccesses_inside {numIn offset : Nat} (hfits : cfg.asmLenBits + offset ≤ numIn) :
    ∀ a ∈ checkAccesses cfg numIn offset, a.Inside := by
  intro a ha
  obtain ⟨i, hi, rfl⟩ := List.mem_map.mp ha
  exact Nat.lt_of_lt_of_le (Nat.add_lt_add_right (List.mem_range.mp hi) offset) hfits

omit [Arithmetic R] in
theorem Config.lower_le (cfg : Config R) (n : Nat) : cfg.lower n ≤ n := getLowerMul_le _ _

omit [Arithmetic R] in
/-- What a search looks at is longer than an ASM by a symbol. -/
theorem Config.asm_add_symbol_le_searchLen {numInput numConsumed : Nat}
    (havailable : cfg.searchLenMin ≤ numInput - numConsumed) :
    cfg.asmLenBits + cfg.ldM ≤ cfg.searchLen numInput numConsumed := by
  have hframe : 8 ≤ cfg.messageLen := Nat.le_add_right_of_le cfg.le_frameLenBits
  have hsymbol := cfg.ldM_le
  have hasm := cfg.asmLenBits_pos
  have hmax : cfg.searchLenMin ≤ cfg.searchLenMax := by
    apply getUpperMul_le (getUpperMul_dvd _ _)
    exact Nat.le_trans (by omega) (le_getUpperMul cfg.ldM_pos _)
  have hmin : cfg.searchLenMin ≤ cfg.searchLen numInput numConsumed :=
    le_getLowerMul (getUpperMul_dvd _ _) (Nat.le_min.mpr ⟨havailable, hmax⟩)
  exact (le_getUpperMul cfg.ldM_pos _).trans hmin

omit [Arithmetic R] in
theorem Config.searchLen_le (numInput numConsumed : Nat) :
    cfg.searchLen numInput numConsumed ≤ numInput - numConsumed :=
  (cfg.lower_le _).trans (Nat.min_le_left _ _)

omit [Arithmetic R] in
/-- A search that finds nothing consumes a symbol at least. -/
theorem Config.symbol_le_searched {numInput numConsumed : Nat}
    (havailable : cfg.searchLenMin ≤ numInput - numConsumed) :
    cfg.ldM ≤ cfg.lower (cfg.searchLen numInput numConsumed - (cfg.asmLenBits - 1)) := by
  have hlong := Config.asm_add_symbol_le_searchLen havailable
  exact le_getLowerMul (Nat.dvd_refl _) (by omega)

end Checks

/-- How far the state is from one that consumes input. -/
def Resolver.rank (s : Resolver R) : Nat :=
  match s.state with
  | .search => 1
  | .lock => if s.msgBufferFill then (if s.msgBufferCount = 0 then 0 else 3) else 2

/-- The ambiguity is one of the constellation, and a search starts with a whole symbol. -/
structure Resolver.Steady (cfg : Config R) (s : Resolver R) : Prop where
  ambiguity : s.lockedOnStream < cfg.order
  search : s.state = .search → s.offsetBits = 0

variable {cfg : Config R}

theorem Resolver.rank_le (s : Resolver R) : s.rank ≤ 3 := by
  unfold rank
  repeat' split
  all_goals decide

section Fill

variable {s : Resolver R} {available : Nat}

theorem Resolver.toBuffer_le : s.toBuffer cfg available ≤ available := by
  rw [toBuffer, pickSmaller_eq_min]
  exact (Nat.min_le_left _ _).trans (cfg.lower_le _)

theorem Resolver.symbol_le_of_checkLen (hfill : s.msgBufferFill = true)
    (havailable : s.checkLen cfg ≤ available) : cfg.ldM ≤ available := by
  apply Nat.le_trans _ havailable
  simpa [checkLen, Config.upper, hfill] using
    Nat.le_of_dvd (le_getUpperMul cfg.ldM_pos 1) (getUpperMul_dvd _ _)

theorem Resolver.symbol_le_toBuffer (hsymbol : cfg.ldM ≤ available)
    (hcount : s.msgBufferCount < cfg.messageLen) : cfg.ldM ≤ s.toBuffer cfg available := by
  have hupper := le_getUpperMul cfg.ldM_pos (cfg.messageLen - s.msgBufferCount + s.offsetBits)
  rw [toBuffer, pickSmaller_eq_min]
  refine Nat.le_min.mpr ⟨le_getLowerMul (Nat.dvd_refl _) hsymbol, ?_⟩
  apply Nat.le_of_dvd _ (getUpperMul_dvd _ _)
  omega

/-- Filling the buffer consumes a symbol, or it completes a message that has been begun. -/
theorem Resolver.fill_progress (hsymbol : cfg.ldM ≤ available)
    (hcount : s.msgBufferCount < cfg.messageLen) :
    0 < cfg.lower (s.toCopy cfg available + s.offsetBits) ∨
      0 < s.msgBufferCount ∧ cfg.messageLen ≤ s.msgBufferCount + s.toCopy cfg available := by
  have hbuffer := symbol_le_toBuffer hsymbol hcount
  have hframe : 8 ≤ cfg.messageLen := Nat.le_add_right_of_le cfg.le_frameLenBits
  have hbyte := cfg.ldM_le
  have hcopy : s.toCopy cfg available =
      min (cfg.messageLen - s.msgBufferCount) (s.toBuffer cfg available - s.offsetBits) := rfl
  by_cases hlong : cfg.ldM ≤ s.toCopy cfg available + s.offsetBits
  · exact Or.inl (Nat.lt_of_lt_of_le cfg.ldM_pos (le_getLowerMul (Nat.dvd_refl _) hlong))
  · -- less than a symbol is copied, so that nothing else is missing
    right
    omega

end Fill

section Check

variable [Arithmetic R]

theorem searchForAsm_fits (input : Nat → R) {numIn : Nat} (hlen : cfg.asmLenBits ≤ numIn) :
    (searchForAsm cfg input numIn).2 + cfg.asmLenBits ≤ numIn := by
  unfold searchForAsm
  rcases searchOffsets_cases cfg input (List.range (numIn - cfg.asmLenBits + 1)) (-1, 0) with
    hnothing | ⟨offset, hoffset, hfound⟩
  · rw [hnothing, Nat.zero_add]
    exact hlen
  · rw [hfound]
    exact Nat.add_le_of_le_sub hlen (mem_offsets.mp hoffset)

/-- A check goes on to fill an empty buffer, or to search. -/
theorem checkStep_cases (cfg : Config R) (input : Nat → R) (s : Resolver R) :
    (checkStep cfg input s).2 = some (cfg.lower (cfg.asmLenBits + s.offsetBits)) ∧
        (checkStep cfg input s).1.state = s.state ∧
        (checkStep cfg input s).1.msgBufferFill = true ∧
        (checkStep cfg input s).1.msgBufferCount = s.msgBufferCount ∧
        (checkStep cfg input s).1.lockedOnStream = s.lockedOnStream ∨
      (checkStep cfg input s).2 = none ∧
        (checkStep cfg input s).1.state = .search ∧
        (checkStep cfg input s).1.offsetBits = 0 ∧
        (checkStep cfg input s).1.lockedOnStream = s.lockedOnStream := by
  unfold checkStep
  dsimp only
  split
  · exact Or.inl ⟨rfl, rfl, rfl, rfl, rfl⟩
  · split
    · exact Or.inl ⟨rfl, rfl, rfl, rfl, rfl⟩
    · exact Or.inr ⟨rfl, rfl, rfl, rfl⟩

end Check

namespace Machine

/-- An upper bound for the iterations that a call has left. -/
def remaining (m : Machine R) : Nat :=
  match m.point with
  | .loop numInput numConsumed => 4 * (numInput - numConsumed) + m.resolver.rank + 1
  | _ => 0

/-- The call has returned or has raised an exception. -/
def Ended (m : Machine R) : Prop := m.point = .idle ∨ m.point = .raised

/-- The outcome of an iteration. -/
inductive Progress (m : Machine R) (numInput numConsumed : Nat) (next : Machine R) : Prop where
  | ended (hended : next.Ended)
  | onward (consumed : Nat) (hpoint : next.point = .loop numInput (numConsumed + consumed))
      (hinside : numConsumed + consumed ≤ numInput)
      (hless : 0 < consumed ∨ next.resolver.rank < m.resolver.rank)

/-- A call has not consumed more than there is. -/
structure Bounded (cfg : Config R) (m : Machine R) : Prop where
  inside : ∀ numInput numConsumed, m.point = .loop numInput numConsumed → numConsumed ≤ numInput
  steady : m.resolver.Steady cfg

theorem Progress.remaining_lt {m next : Machine R} {numInput numConsumed : Nat}
    (hprogress : m.Progress numInput numConsumed next)
    (hpoint : m.point = .loop numInput numConsumed) : next.remaining < m.remaining := by
  have hbefore : m.remaining = 4 * (numInput - numConsumed) + m.resolver.rank + 1 := by
    rw [remaining, hpoint]
  rw [hbefore]
  cases hprogress with
  | ended hended => rcases hended with hidle | hraised <;> simp [remaining, *]
  | onward consumed hnext hinside hless =>
      have hrank := next.resolver.rank_le
      rw [remaining, hnext]
      dsimp only
      omega

theorem Progress.inside {m next : Machine R} {numInput numConsumed : Nat}
    (hprogress : m.Progress numInput numConsumed next) :
    ∀ numInput numConsumed, next.point = .loop numInput numConsumed →
      numConsumed ≤ numInput := by
  intro input consumed hloop
  cases hprogress with
  | ended hended => rcases hended with hidle | hraised <;> simp_all
  | onward _ hpoint hinside _ =>
      cases hpoint.symm.trans hloop
      exact hinside

variable [Arithmetic R] {stream : Nat → R} {tags : List (Tag R)} {m : Machine R}
  {numInput numConsumed : Nat}

/-- The match of a search lies within the searched bits, in one of the ambiguities. -/
theorem selected_fits (hoffset : m.resolver.offsetBits = 0)
    (havailable : cfg.searchLenMin ≤ numInput - numConsumed) :
    (m.selected cfg stream numInput numConsumed).offsetBits + cfg.asmLenBits ≤
        cfg.searchLen numInput numConsumed ∧
      (m.selected cfg stream numInput numConsumed).ambiguity < cfg.order := by
  have hlen : cfg.asmLenBits ≤ cfg.searchLen numInput numConsumed :=
    asmLenBits_le_searchLen havailable
  rcases searchStreams_cases cfg (m.window stream numConsumed)
    (cfg.searchLen numInput numConsumed) (List.range cfg.order)
    { correlation := -1, ambiguity := 0, offsetBits := m.resolver.offsetBits } with
    hkept | ⟨ambiguity, hmem, hambiguity, hmatch⟩
  · rw [selected, hkept, hoffset, Nat.zero_add]
    exact ⟨hlen, Nat.two_pow_pos _⟩
  · refine ⟨?_, hambiguity.symm ▸ List.mem_range.mp hmem⟩
    have hposition : (m.selected cfg stream numInput numConsumed).offsetBits = _ :=
      congrArg Prod.snd hmatch
    rw [hposition]
    exact searchForAsm_fits _ hlen

theorem progress_searchStep (hsteady : m.resolver.Steady cfg)
    (hstate : m.resolver.state = .search) (hempty : m.resolver.msgBufferCount = 0)
    (hconsumed : numConsumed ≤ numInput)
    (havailable : cfg.searchLenMin ≤ numInput - numConsumed) :
    m.Progress numInput numConsumed (m.searchStep cfg stream numInput numConsumed) ∧
      (m.searchStep cfg stream numInput numConsumed).resolver.Steady cfg := by
  have hsearched : cfg.searchLen numInput numConsumed ≤ numInput - numConsumed :=
    Config.searchLen_le _ _
  have hfits : (m.selected cfg stream numInput numConsumed).offsetBits + cfg.asmLenBits ≤
      cfg.searchLen numInput numConsumed ∧
        (m.selected cfg stream numInput numConsumed).ambiguity < cfg.order :=
    selected_fits (hsteady.search hstate) havailable
  obtain ⟨hoffset, hambiguity⟩ := hfits
  unfold searchStep
  dsimp only
  split
  · -- nothing may be consumed, but the buffer is empty
    have hinside := cfg.lower_le ((m.selected cfg stream numInput numConsumed).offsetBits +
      cfg.asmLenBits)
    refine ⟨.onward _ rfl ?_ (Or.inr ?_), hambiguity, nofun⟩
    · exact Nat.add_le_of_le_sub' hconsumed (hinside.trans (hoffset.trans hsearched))
    · simp [Resolver.rank, hstate, hempty]
  · have hinside := cfg.lower_le (cfg.searchLen numInput numConsumed - (cfg.asmLenBits - 1))
    refine ⟨.onward _ rfl ?_ (Or.inl ?_), hsteady.ambiguity, fun _ => rfl⟩
    · exact Nat.add_le_of_le_sub' hconsumed
        (hinside.trans ((Nat.sub_le _ _).trans hsearched))
    · exact Nat.lt_of_lt_of_le cfg.ldM_pos (Config.symbol_le_searched havailable)

theorem progress_fillStep (hsteady : m.resolver.Steady cfg)
    (hstate : m.resolver.state = .lock) (hfill : m.resolver.msgBufferFill = true)
    (hoffset : m.resolver.offsetBits < cfg.ldM)
    (hcount : m.resolver.msgBufferCount < cfg.messageLen) (hconsumed : numConsumed ≤ numInput)
    (havailable : m.resolver.checkLen cfg ≤ numInput - numConsumed) :
    m.Progress numInput numConsumed (m.lockStep cfg stream tags numInput numConsumed) ∧
      (m.lockStep cfg stream tags numInput numConsumed).resolver.Steady cfg := by
  have hsymbol := Resolver.symbol_le_of_checkLen hfill havailable
  obtain ⟨_, hbuffer, _⟩ := toCopy_bounds hoffset hsymbol hcount
  have hinside : numConsumed + cfg.lower (m.resolver.toCopy cfg (numInput - numConsumed) +
      m.resolver.offsetBits) ≤ numInput :=
    Nat.add_le_of_le_sub' hconsumed
      ((cfg.lower_le _).trans (hbuffer.trans Resolver.toBuffer_le))
  have hprogress := Resolver.fill_progress (s := m.resolver) hsymbol hcount
  unfold lockStep
  rw [if_pos hfill]
  dsimp only
  split
  next hfull =>
    unfold sendMessage
    dsimp only
    split
    next hnone =>
      split at hnone
      · exact ⟨.ended (Or.inr rfl), hsteady.ambiguity, fun h => nomatch hstate.symm.trans h⟩
      · cases hnone
    next hsome =>
      split at hsome
      · cases hsome
      · cases hsome
        refine ⟨.onward _ rfl hinside (hprogress.imp_right fun hbegun => ?_),
          hsteady.ambiguity, fun h => nomatch hstate.symm.trans h⟩
        simp [Resolver.rank, hstate, hfill, fillBuffer, Nat.ne_of_gt hbegun.1]
  next hmore =>
    refine ⟨.onward _ rfl hinside (Or.inl (hprogress.resolve_right fun hfull => ?_)),
      hsteady.ambiguity, fun h => nomatch hstate.symm.trans h⟩
    exact hmore hfull.2

theorem progress_checkStep (hsteady : m.resolver.Steady cfg)
    (hstate : m.resolver.state = .lock) (hfill : m.resolver.msgBufferFill = false)
    (hempty : m.resolver.msgBufferCount = 0) (hconsumed : numConsumed ≤ numInput)
    (havailable : m.resolver.checkLen cfg ≤ numInput - numConsumed) :
    m.Progress numInput numConsumed (m.lockStep cfg stream tags numInput numConsumed) ∧
      (m.lockStep cfg stream tags numInput numConsumed).resolver.Steady cfg := by
  have hcases := checkStep_cases cfg (fun i => stream (m.nitemsRead + numConsumed + i)) m.resolver
  unfold lockStep
  rw [if_neg (by simp [hfill])]
  generalize checkStep cfg (fun i => stream (m.nitemsRead + numConsumed + i)) m.resolver =
    result at hcases
  obtain ⟨s, consumed⟩ := result
  dsimp only at hcases
  rcases hcases with ⟨rfl, hkept, hfilling, hcount, hambiguity⟩ |
    ⟨rfl, hsearch, hoffset, hambiguity⟩
  · have hasm : cfg.asmLenBits + m.resolver.offsetBits ≤ m.resolver.checkLen cfg := by
      simpa [Resolver.checkLen, Config.upper, hfill] using le_getUpperMul cfg.ldM_pos _
    refine ⟨.onward _ rfl ?_ (Or.inr ?_), hambiguity ▸ hsteady.ambiguity, fun hsearch => ?_⟩
    · exact Nat.add_le_of_le_sub' hconsumed
        ((cfg.lower_le _).trans (hasm.trans havailable))
    · simp [Resolver.rank, hkept, hstate, hfill, hfilling, hcount, hempty]
    · cases (hkept.trans hstate).symm.trans hsearch
  · refine ⟨.onward 0 rfl hconsumed (Or.inr ?_), hambiguity ▸ hsteady.ambiguity,
      fun _ => hoffset⟩
    simp [Resolver.rank, hsearch, hstate, hfill]

/-- An iteration makes progress. -/
theorem Bounded.progress (hbounded : m.Bounded cfg) (htracks : Tracks cfg stream tags m)
    (hpoint : m.point = .loop numInput numConsumed) :
    ∃ next, m.step cfg stream tags .proceed = some next ∧
      m.Progress numInput numConsumed next ∧ next.resolver.Steady cfg := by
  have hraised : m.point ≠ .raised := by simp [hpoint]
  have hconsumed := hbounded.inside numInput numConsumed hpoint
  unfold step
  rw [hpoint]
  dsimp only
  split
  next hstate =>
    split
    · exact ⟨_, rfl, .ended (Or.inl rfl), hbounded.steady.ambiguity, hbounded.steady.search⟩
    next hmore =>
      have hempty := (htracks.search hraised hstate).2
      exact ⟨_, rfl, progress_searchStep hbounded.steady hstate hempty hconsumed
        (Nat.le_of_not_lt hmore)⟩
  next hstate =>
    split
    · exact ⟨_, rfl, .ended (Or.inl rfl), hbounded.steady.ambiguity, hbounded.steady.search⟩
    next hmore =>
      have havailable := Nat.le_of_not_lt hmore
      obtain ⟨lock, _, ⟨hfilling, hcount⟩ | hchecking⟩ := htracks.lock hraised hstate
      · exact ⟨_, rfl, progress_fillStep hbounded.steady hstate hfilling.fill
          hfilling.offset_lt hcount hconsumed havailable⟩
      · exact ⟨_, rfl, progress_checkStep hbounded.steady hstate hchecking.fill
          hchecking.empty hconsumed havailable⟩

theorem Bounded.step {next : Machine R} {label : Label} (hbounded : m.Bounded cfg)
    (htracks : Tracks cfg stream tags m) (hstep : m.step cfg stream tags label = some next) :
    next.Bounded cfg := by
  cases hpoint : m.point with
  | idle =>
      cases label with
      | work numInput =>
          simp only [Machine.step, hpoint, Option.some.injEq] at hstep
          subst hstep
          refine ⟨fun input consumed hloop => ?_, hbounded.steady⟩
          cases hloop
          exact Nat.zero_le _
      | proceed => simp [Machine.step, hpoint] at hstep
  | raised => simp [step_of_raised hpoint] at hstep
  | loop numInput numConsumed =>
      cases label with
      | work input => simp [Machine.step, hpoint] at hstep
      | proceed =>
          obtain ⟨other, hother, hprogress, hsteady⟩ := hbounded.progress htracks hpoint
          cases hother.symm.trans hstep
          exact ⟨hprogress.inside, hsteady⟩

theorem bounded_start : (start : Machine R).Bounded cfg :=
  ⟨nofun, Nat.two_pow_pos _, fun _ => rfl⟩

theorem bounded_of_reachable
    (hreachable : Transition.Reachable (Machine.step cfg stream tags) (fun _ _ => True) start m) :
    m.Bounded cfg := by
  refine hreachable.invariant_along bounded_start ?_
  intro before label next hbefore hbounded _ hstep
  exact hbounded.step (tracks_of_reachable hbefore) hstep

section Checks

theorem searchDifferences_exact (hconsumed : numConsumed ≤ numInput) :
    ∀ d ∈ m.searchDifferences cfg stream numInput numConsumed, d.Exact := by
  intro d hd
  unfold searchDifferences at hd
  rcases List.mem_cons.mp hd with rfl | hd
  · exact hconsumed
  split at hd
  · exact absurd hd List.not_mem_nil
  next hmore =>
    have hlen : cfg.asmLenBits ≤ cfg.searchLen numInput numConsumed :=
      asmLenBits_le_searchLen (Nat.le_of_not_lt hmore)
    rcases List.mem_append.mp hd with hd | hd
    · obtain ⟨ambiguity, hambiguity, hd⟩ := List.mem_flatMap.mp hd
      rcases List.mem_append.mp hd with hd | hd
      · exact convertDifferences_exact (List.mem_range.mp hambiguity) _ _ d hd
      · cases List.mem_singleton.mp hd
        exact hlen
    · simp only [List.mem_cons, List.not_mem_nil, or_false] at hd
      rcases hd with rfl | rfl
      · exact cfg.asmLenBits_pos
      · exact (Nat.sub_le _ _).trans hlen

omit [Arithmetic R] in
theorem searchAccesses_inside (hconsumed : numConsumed ≤ numInput) :
    ∀ a ∈ searchAccesses cfg numInput numConsumed, a.Inside := by
  intro a ha
  unfold searchAccesses at ha
  dsimp only at ha
  split at ha
  · exact absurd ha List.not_mem_nil
  next hmore =>
    have hlen : cfg.asmLenBits ≤ cfg.searchLen numInput numConsumed :=
      asmLenBits_le_searchLen (Nat.le_of_not_lt hmore)
    obtain ⟨ambiguity, _, ha⟩ := List.mem_flatMap.mp ha
    rcases List.mem_append.mp ha with ha | ha
    · refine convertAccesses_inside (searchLen_dvd cfg _ _) ?_ ambiguity a ha
      exact Nat.add_le_of_le_sub' hconsumed (Config.searchLen_le _ _)
    · obtain ⟨offset, hoffset, ha⟩ := List.mem_flatMap.mp ha
      refine checkAccesses_inside ?_ a ha
      exact Nat.add_le_of_le_sub' hlen (mem_offsets.mp hoffset)

theorem fillDifferences_exact {lock : Lock R} (hsteady : m.resolver.Steady cfg)
    (hfilling : Filling cfg stream lock
      (m.nitemsRead + numConsumed + m.resolver.offsetBits) m.resolver)
    (hcount : m.resolver.msgBufferCount < cfg.messageLen) (hconsumed : numConsumed ≤ numInput)
    (havailable : m.resolver.checkLen cfg ≤ numInput - numConsumed) :
    ∀ d ∈ m.fillDifferences cfg stream numInput numConsumed, d.Exact := by
  have hsymbol := Resolver.symbol_le_of_checkLen hfilling.fill havailable
  obtain ⟨_, hbuffer, _⟩ := toCopy_bounds hfilling.offset_lt hsymbol hcount
  intro d hd
  simp only [fillDifferences, List.mem_append, List.mem_cons, List.not_mem_nil, or_false] at hd
  rcases hd with (((rfl | rfl) | hd) | (rfl | rfl)) | hd
  · exact hconsumed
  · exact hcount.le
  · exact convertDifferences_exact hsteady.ambiguity _ _ d hd
  · exact hcount.le
  · exact Nat.le_of_add_left_le hbuffer
  split at hd
  next hfull =>
    cases List.mem_singleton.mp hd
    -- the position behind the frame counts its bits
    have hposition := hfilling.position
    have hsum := getLowerMul_add_mod cfg.ldM (m.resolver.toCopy cfg (numInput - numConsumed) +
      m.resolver.offsetBits)
    unfold Difference.Exact Config.lower
    dsimp only
    omega
  next => exact absurd hd List.not_mem_nil

omit [Arithmetic R] in
theorem fillAccesses_inside (hoffset : m.resolver.offsetBits < cfg.ldM)
    (hsymbol : cfg.ldM ≤ numInput - numConsumed)
    (hcount : m.resolver.msgBufferCount < cfg.messageLen) (hconsumed : numConsumed ≤ numInput) :
    ∀ a ∈ m.fillAccesses cfg numInput numConsumed, a.Inside := by
  obtain ⟨_, hbuffer, hremaining⟩ := toCopy_bounds hoffset hsymbol hcount
  intro a ha
  rcases List.mem_append.mp ha with ha | ha
  · refine convertAccesses_inside toBuffer_dvd ?_ _ a ha
    exact Nat.add_le_of_le_sub' hconsumed Resolver.toBuffer_le
  · obtain ⟨i, hi, ha⟩ := List.mem_flatMap.mp ha
    rw [List.mem_range] at hi
    simp only [List.mem_cons, List.not_mem_nil, or_false] at ha
    rcases ha with rfl | rfl
    · exact Nat.lt_of_lt_of_le (Nat.add_lt_add_right hi _) hbuffer
    · exact Nat.add_lt_of_lt_sub' (Nat.lt_of_lt_of_le hi hremaining)

theorem checkDifferences_exact (hsteady : m.resolver.Steady cfg)
    (hconsumed : numConsumed ≤ numInput) :
    ∀ d ∈ m.checkDifferences cfg stream numInput numConsumed, d.Exact := by
  intro d hd
  rcases List.mem_append.mp hd with hd | hd
  · rcases List.mem_cons.mp hd with rfl | hd
    · exact hconsumed
    · exact convertDifferences_exact hsteady.ambiguity _ _ d hd
  · split at hd
    next hconfident =>
      cases List.mem_singleton.mp hd
      exact hconfident.le
    next => exact absurd hd List.not_mem_nil

omit [Arithmetic R] in
theorem checkStep_inside (hfill : m.resolver.msgBufferFill = false)
    (hconsumed : numConsumed ≤ numInput)
    (havailable : m.resolver.checkLen cfg ≤ numInput - numConsumed) :
    ∀ a ∈ convertAccesses cfg numConsumed numInput (m.resolver.checkLen cfg)
        m.resolver.lockedOnStream ++
      checkAccesses cfg (m.resolver.checkLen cfg) m.resolver.offsetBits, a.Inside := by
  intro a ha
  rcases List.mem_append.mp ha with ha | ha
  · exact convertAccesses_inside (getUpperMul_dvd _ _)
      (Nat.add_le_of_le_sub' hconsumed havailable) _ a ha
  · refine checkAccesses_inside ?_ a ha
    simpa [Resolver.checkLen, Config.upper, hfill] using le_getUpperMul cfg.ldM_pos _

theorem Bounded.differences_exact (hbounded : m.Bounded cfg)
    (htracks : Tracks cfg stream tags m) : ∀ d ∈ m.differences cfg stream, d.Exact := by
  intro d hd
  unfold differences at hd
  split at hd
  next numInput numConsumed hpoint =>
    have hconsumed := hbounded.inside numInput numConsumed hpoint
    split at hd
    · exact searchDifferences_exact hconsumed d hd
    next hstate =>
      split at hd
      · cases List.mem_singleton.mp hd
        exact hconsumed
      next hmore =>
        split at hd
        next hfill =>
          obtain ⟨lock, _, ⟨hfilling, hcount⟩ | hchecking⟩ :=
            htracks.lock (by simp [hpoint]) hstate
          · rw [base_of_loop hpoint] at hfilling
            exact fillDifferences_exact hbounded.steady hfilling hcount hconsumed
              (Nat.le_of_not_lt hmore) d hd
          · exact absurd (hchecking.fill.symm.trans hfill) nofun
        next => exact checkDifferences_exact hbounded.steady hconsumed d hd
  next => exact absurd hd List.not_mem_nil

theorem Bounded.accesses_inside (hbounded : m.Bounded cfg)
    (htracks : Tracks cfg stream tags m) : ∀ a ∈ m.accesses cfg, a.Inside := by
  intro a ha
  unfold accesses at ha
  split at ha
  next numInput numConsumed hpoint =>
    have hconsumed := hbounded.inside numInput numConsumed hpoint
    split at ha
    · exact searchAccesses_inside hconsumed a ha
    next hstate =>
      split at ha
      · exact absurd ha List.not_mem_nil
      next hmore =>
        have havailable := Nat.le_of_not_lt hmore
        split at ha
        next hfill =>
          obtain ⟨lock, _, ⟨hfilling, hcount⟩ | hchecking⟩ :=
            htracks.lock (by simp [hpoint]) hstate
          · exact fillAccesses_inside hfilling.offset_lt
              (Resolver.symbol_le_of_checkLen hfill havailable) hcount hconsumed a ha
          · exact absurd (hchecking.fill.symm.trans hfill) nofun
        next hfill =>
          exact checkStep_inside (Bool.eq_false_of_not_eq_true hfill) hconsumed havailable a ha
  next => exact absurd ha List.not_mem_nil

theorem Tracks.asserts (htracks : Tracks cfg stream tags m) : m.Asserts cfg := by
  intro numInput numConsumed hpoint hstate hfill havailable
  have hsymbol := Resolver.symbol_le_of_checkLen hfill havailable
  obtain ⟨lock, _, ⟨hfilling, hcount⟩ | hchecking⟩ := htracks.lock (by simp [hpoint]) hstate
  · exact ⟨Nat.lt_of_lt_of_le cfg.ldM_pos (Resolver.symbol_le_toBuffer hsymbol hcount),
      (toCopy_bounds hfilling.offset_lt hsymbol hcount).1⟩
  · exact absurd (hchecking.fill.symm.trans hfill) nofun

end Checks

/-- In every reachable state the call that is going on ends. It never consumes more than there
is and always whole symbols, no difference of an iteration wraps, no access is outside its array
and no assertion fails. -/
theorem generalWork_ends_inside
    (hreachable : Transition.Reachable (Machine.step cfg stream tags) (fun _ _ => True) start m) :
    (∃ n ≤ m.remaining, ∃ last,
      Transition.run (Machine.step cfg stream tags) m (List.replicate n .proceed) = some last ∧
        last.Ended) ∧
    (∀ numInput numConsumed, m.point = .loop numInput numConsumed →
      numConsumed ≤ numInput ∧ cfg.ldM ∣ numConsumed) ∧
    (∀ d ∈ m.differences cfg stream, d.Exact) ∧
    (∀ a ∈ m.accesses cfg, a.Inside) ∧
    m.Asserts cfg := by
  have htracks := tracks_of_reachable hreachable
  have hbounded := bounded_of_reachable hreachable
  refine ⟨?_, ?_, hbounded.differences_exact htracks, hbounded.accesses_inside htracks,
    htracks.asserts⟩
  · have hless : ∀ s,
        Transition.Reachable (Machine.step cfg stream tags) (fun _ _ => True) start s →
        ¬ s.Ended → ∃ next, s.step cfg stream tags .proceed = some next ∧
          Transition.Reachable (Machine.step cfg stream tags) (fun _ _ => True) start next ∧
          next.remaining < s.remaining := by
      intro s hs hgoing
      cases hpoint : s.point with
      | idle => exact absurd (Or.inl hpoint) hgoing
      | raised => exact absurd (Or.inr hpoint) hgoing
      | loop numInput numConsumed =>
          obtain ⟨next, hstep, hprogress, _⟩ :=
            (bounded_of_reachable hs).progress (tracks_of_reachable hs) hpoint
          exact ⟨next, hstep, hs.step trivial hstep, hprogress.remaining_lt hpoint⟩
    obtain ⟨n, hn, last, hrun, _, hended⟩ :=
      Transition.exists_run_replicate remaining Label.proceed hless hreachable
    exact ⟨n, hn, last, hrun, hended⟩
  · intro numInput numConsumed hpoint
    exact ⟨hbounded.inside numInput numConsumed hpoint, htracks.dvd_numConsumed hpoint⟩

open scoped ExactNumbers

/-- Frames of eight bits, each behind the ASM of two bits. -/
def markedStream (i : Nat) : ℚ := if i % 10 = 0 then 1 else -1

/-- A lock that fills its buffer with the frame behind the first ASM. -/
theorem generalWork_ends_inside_lock : ∃ m : Machine ℚ,
    Transition.run (Machine.step twoBitConfig markedStream []) start [.work 14, .proceed] =
        some m ∧
      m.resolver.state = .lock ∧ m.resolver.msgBufferFill = true ∧
      (m.accesses twoBitConfig).length = 32 ∧ (∀ a ∈ m.accesses twoBitConfig, a.Inside) ∧
      ∃ n ≤ 49, ∃ last, Transition.run (Machine.step twoBitConfig markedStream []) m
          (List.replicate n .proceed) = some last ∧ last.Ended := by
  obtain ⟨m, hrun, hm⟩ := Option.map_eq_some_iff.mp
    (show (Transition.run (Machine.step twoBitConfig markedStream []) start
        [.work 14, .proceed]).map (fun m => (m.resolver.state, m.resolver.msgBufferFill,
          (m.accesses twoBitConfig).length, m.remaining)) = some (.lock, true, 32, 49) by
      decide +kernel)
  simp only [Prod.mk.injEq] at hm
  obtain ⟨hstate, hfill, hlength, hremaining⟩ := hm
  obtain ⟨hends, -, -, hinside, -⟩ := generalWork_ends_inside (Transition.reachable_of_run hrun)
  rw [hremaining] at hends
  exact ⟨m, hrun, hstate, hfill, hlength, hinside, hends⟩

end Machine

end GrCcsds.Ambiguity
