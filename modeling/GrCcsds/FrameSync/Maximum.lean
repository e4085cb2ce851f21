import GrCcsds.FrameSync.Block
import GrCcsds.FrameSync.Layout
import GrCcsds.FrameSync.Snr

/-! # The search for the best candidate

`findMaximumInBuffer` keeps the first candidate as its leader and replaces it by
a better finite score, or by a better correlation when both scores are not
finite. A leader with the score NaN or positive infinity is never replaced by a
finite score, so the result is the best candidate only if the leader gets
finite in time.
-/

namespace GrCcsds.FrameSync

open Utils Foundation Extended

/-- What the search computes with floating point numbers. They are compared by
their values. -/
structure Search (env : Platform) (K : Type) where
  value : env.Float → Extended K
  /-- `std::abs` of a correlation. -/
  absSample : env.Sample → env.Float
  subFloat : env.Float → env.Float → env.Float
  detectAmbiguity : env.Sample → Nat

/-- The variables of `findMaximumInBuffer`. -/
structure Maximum (env : Platform) where
  initialized : Bool
  index : Nat
  score : env.Float
  correlationAbs : env.Float
  correlation : env.Sample

/-- The energies that `energy_window_ptr` points to. It throws if they are not all in the
window. -/
def Layout.energyWindow {env : Platform} (layout : Layout env.Sample) (b : Buffer env)
    (localPos num : Nat) : Option (List env.Float) :=
  if localPos + num > layout.blockLen + layout.overlapLen then none
  else some ((List.range num).map fun j => b.energy (layout.historyLen + localPos + j))

namespace Search

variable {env : Platform} {K : Type} [LinearOrder K] (search : Search env K)
  (layout : Layout env.Sample) (b : Buffer env)

def initialMaximum : Maximum env where
  initialized := false
  index := 0
  score := env.zeroFloat
  correlationAbs := env.zeroFloat
  correlation := env.zero

/-- One iteration of the loop. -/
def iteration (i : Nat) (max : Maximum env) : Option (Maximum env) :=
  (layout.energyWindow b i layout.asmLen).map fun energies =>
    let energyCorrection := energies.foldl env.addFloat env.zeroFloat
    let correlation := layout.correlationWindow b i
    let correlationAbs := search.absSample correlation
    let score := search.subFloat correlationAbs energyCorrection
    let betterFiniteScore := (search.value score).isFinite &&
      decide (search.value max.score < search.value score)
    let bothScoresInfinite := (search.value max.score).isFinite == false &&
      (search.value score).isFinite == false
    let infiniteScoresButBetterCorrelation := bothScoresInfinite &&
      decide (search.value max.correlationAbs < search.value correlationAbs)
    let update := !max.initialized || betterFiniteScore || infiniteScoresButBetterCorrelation
    { initialized := updateNobranch max.initialized update true
      index := updateNobranch max.index update i
      score := updateNobranch max.score update score
      correlationAbs := updateNobranch max.correlationAbs update correlationAbs
      correlation := updateNobranch max.correlation update correlation }

def loop : Nat → Option (Maximum env)
  | 0 => some initialMaximum
  | i + 1 => (loop i).bind (search.iteration layout b i)

def findMaximumInBuffer (maxNumItems : Nat) : Option AsmPosition :=
  (search.loop layout b maxNumItems).map fun max =>
    { offset := b.offset + max.index
      ambiguity := search.detectAmbiguity max.correlation
      sequence := sequenceUnused }

end Search

section Selection

variable {K : Type} [LinearOrder K] (score magnitude : Nat → Extended K)

/-- The candidate that the search is for, among the first `n`. -/
def IsBest (n k : Nat) : Prop :=
  FirstHighest (fun i => (score i).isFinite = true) score n k ∨
    (∀ i < n, (score i).isFinite = false) ∧ FirstHighest (fun _ => True) magnitude n k

/-- The candidate with the best correlation of those whose score is not finite.
No correlation is better than NaN. -/
def Leads (n k : Nat) : Prop :=
  (magnitude 0).isNaN = true ∧ k = 0 ∨
    (magnitude 0).isNaN = false ∧ FirstHighest (fun i => (score i).isFinite = false) magnitude n k

/-- A finite score is reached in time: at the start or when the score of the
leader is negative infinity. Without finite scores, the first correlation is a
number if there is one. -/
structure Reaches (n : Nat) : Prop where
  finite : ∀ m, FirstHighest (fun i => (score i).isFinite = true) score n m →
    ∃ j ≤ m, (score j).isFinite = true ∧
      (j = 0 ∨ ∃ k, Leads score magnitude j k ∧ score k = infinite true)
  unbounded : (∀ i < n, (score i).isFinite = false) →
    (magnitude 0).isNaN = false ∨ ∀ i < n, (magnitude i).isNaN = true

/-- Candidate `i` replaces candidate `k`. -/
def Replaces (k i : Nat) : Prop :=
  (score i).isFinite = true ∧ score k < score i ∨
    ((score k).isFinite = false ∧ (score i).isFinite = false) ∧ magnitude k < magnitude i

instance (k i : Nat) : Decidable (Replaces score magnitude k i) :=
  inferInstanceAs (Decidable ((score i).isFinite = true ∧ score k < score i ∨
    ((score k).isFinite = false ∧ (score i).isFinite = false) ∧ magnitude k < magnitude i))

/-- The leader after candidate `n`. -/
def leader : Nat → Nat
  | 0 => 0
  | n + 1 => if Replaces score magnitude (leader n) (n + 1) then n + 1 else leader n

variable {score magnitude}

variable (score magnitude) in
theorem leader_le (n : Nat) : leader score magnitude n ≤ n := by
  induction n with
  | zero => exact Nat.le_refl 0
  | succ n ih =>
      rw [leader]
      split
      next => exact Nat.le_refl _
      next => exact Nat.le_succ_of_le ih

/-- A finite leader is only replaced by a finite score. -/
theorem isFinite_leader_succ {n : Nat}
    (hfinite : (score (leader score magnitude n)).isFinite = true) :
    (score (leader score magnitude (n + 1))).isFinite = true := by
  rw [leader]
  split
  next hreplaces =>
    rcases hreplaces with ⟨hnext, -⟩ | ⟨⟨hnot, -⟩, -⟩
    · exact hnext
    · rw [hfinite] at hnot
      cases hnot
  next => exact hfinite

theorem isFinite_leader_of_le {j n : Nat} (hle : j ≤ n)
    (hfinite : (score (leader score magnitude j)).isFinite = true) :
    (score (leader score magnitude n)).isFinite = true := by
  induction n, hle using Nat.le_induction with
  | base => exact hfinite
  | succ n _ ih => exact isFinite_leader_succ ih

theorem isFinite_eq_false_of_succ {n : Nat}
    (hnot : (score (leader score magnitude (n + 1))).isFinite = false) :
    (score (leader score magnitude n)).isFinite = false := by
  cases hfinite : (score (leader score magnitude n)).isFinite with
  | false => rfl
  | true =>
      rw [isFinite_leader_succ hfinite] at hnot
      cases hnot

/-- A leader that is not finite has the best correlation so far. -/
theorem leads_leader {n : Nat} (hnot : (score (leader score magnitude n)).isFinite = false) :
    Leads score magnitude (n + 1) (leader score magnitude n) := by
  induction n with
  | zero =>
      cases hnan : (magnitude 0).isNaN with
      | true => exact Or.inl ⟨hnan, rfl⟩
      | false =>
          exact Or.inr ⟨hnan,
            FirstHighest.only hnot hnan fun _ hi => absurd hi (Nat.not_lt_zero _)⟩
  | succ n ih =>
      have hbefore := isFinite_eq_false_of_succ hnot
      rw [leader] at hnot ⊢
      split at hnot
      next hreplaces =>
        rw [if_pos hreplaces]
        rcases hreplaces with ⟨hfinite, -⟩ | ⟨-, hlt⟩
        · rw [hfinite] at hnot
          cases hnot
        · rcases ih hbefore with ⟨hnan, hzero⟩ | ⟨hnumber, hfirst⟩
          · rw [hzero] at hlt
            rw [(isNaN_eq_false_of_lt hlt).1] at hnan
            cases hnan
          · exact Or.inr ⟨hnumber, hfirst.replace hnot hlt⟩
      next hkeeps =>
        rw [if_neg hkeeps]
        rcases ih hbefore with hnan | ⟨hnumber, hfirst⟩
        · exact Or.inl hnan
        · refine Or.inr ⟨hnumber, hfirst.keep ?_⟩
          intro hnext hlt
          exact hkeeps (Or.inr ⟨⟨hbefore, hnext⟩, hlt⟩)

/-- A finite leader has the best score since the first finite leader. -/
theorem settled {n : Nat} (hfinite : (score (leader score magnitude n)).isFinite = true) :
    ∃ j ≤ n, (score j).isFinite = true ∧
      (j = 0 ∨ ∃ k, Leads score magnitude j k ∧ score k = infinite true) ∧
      FirstHighest (fun i => (score i).isFinite = true ∧ j ≤ i) score (n + 1)
        (leader score magnitude n) ∧
      ∀ i, (score (leader score magnitude i)).isFinite = true → j ≤ i := by
  induction n with
  | zero =>
      refine ⟨0, Nat.le_refl 0, hfinite, Or.inl rfl, ?_, fun i _ => Nat.zero_le i⟩
      exact FirstHighest.only ⟨hfinite, Nat.le_refl 0⟩ (isNaN_eq_false_of_isFinite hfinite)
        fun _ hi => absurd hi (Nat.not_lt_zero _)
  | succ n ih =>
      cases hbefore : (score (leader score magnitude n)).isFinite with
      | true =>
          obtain ⟨j, hj, hscore, hreached, hfirst, hleast⟩ := ih hbefore
          refine ⟨j, Nat.le_succ_of_le hj, hscore, hreached, ?_, hleast⟩
          rw [leader]
          split
          next hreplaces =>
            rcases hreplaces with ⟨hnext, hlt⟩ | ⟨⟨hnot, -⟩, -⟩
            · exact hfirst.replace ⟨hnext, Nat.le_succ_of_le hj⟩ hlt
            · rw [hbefore] at hnot
              cases hnot
          next hkeeps => exact hfirst.keep fun hnext hlt => hkeeps (Or.inl ⟨hnext.1, hlt⟩)
      | false =>
          have hreplaces : Replaces score magnitude (leader score magnitude n) (n + 1) := by
            by_contra hkeeps
            rw [leader, if_neg hkeeps, hbefore] at hfinite
            cases hfinite
          rw [leader, if_pos hreplaces] at hfinite ⊢
          have hlt : score (leader score magnitude n) < score (n + 1) := by
            rcases hreplaces with ⟨-, hlt⟩ | ⟨⟨-, hnot⟩, -⟩
            · exact hlt
            · rw [hfinite] at hnot
              cases hnot
          refine ⟨n + 1, Nat.le_refl _, hfinite, Or.inr ⟨_, leads_leader hbefore,
            eq_infinite_of_lt hbefore hfinite hlt⟩, ?_, ?_⟩
          · exact FirstHighest.only ⟨hfinite, Nat.le_refl _⟩ (isNaN_eq_false_of_isFinite hfinite)
              fun _ hi hp => absurd hp.2 (Nat.not_le_of_lt hi)
          · intro i hi
            by_contra hearlier
            rw [isFinite_leader_of_le (Nat.le_of_lt_succ (Nat.lt_of_not_le hearlier)) hi] at hbefore
            cases hbefore

theorem Leads.unique {n i k : Nat} (hi : Leads score magnitude n i)
    (hk : Leads score magnitude n k) : i = k := by
  rcases hi with ⟨hnan, rfl⟩ | ⟨hnumber, hi⟩
  · rcases hk with ⟨-, rfl⟩ | ⟨hnumber, -⟩
    · rfl
    · rw [hnan] at hnumber
      cases hnumber
  · rcases hk with ⟨hnan, -⟩ | ⟨-, hk⟩
    · rw [hnan] at hnumber
      cases hnumber
    · exact hi.unique hk

/-- The leader is finite from a finite score on that meets negative infinity. -/
theorem isFinite_leader_of_reached {j : Nat} (hscore : (score j).isFinite = true)
    (hreached : j = 0 ∨ ∃ k, Leads score magnitude j k ∧ score k = infinite true) :
    (score (leader score magnitude j)).isFinite = true := by
  cases j with
  | zero => exact hscore
  | succ j =>
      cases hbefore : (score (leader score magnitude j)).isFinite with
      | true => exact isFinite_leader_succ hbefore
      | false =>
          rcases hreached with hzero | ⟨k, hleads, hk⟩
          · cases hzero
          · rw [← (leads_leader hbefore).unique hleads] at hk
            have hreplaces : Replaces score magnitude (leader score magnitude j) (j + 1) :=
              Or.inl ⟨hscore, hk ▸ infinite_lt_of_isFinite hscore⟩
            rwa [leader, if_pos hreplaces]

/-- The leader is the best candidate exactly if a finite score is reached in time. -/
theorem leader_isBest_iff (n : Nat) :
    (∀ k, IsBest score magnitude (n + 1) k → leader score magnitude n = k) ↔
      Reaches score magnitude (n + 1) := by
  constructor
  · intro hbest
    refine ⟨?_, ?_⟩
    · intro m hm
      have hleader := hbest m (Or.inl hm)
      obtain ⟨j, -, hscore, hreached, hfirst, -⟩ := settled (hleader ▸ hm.holds)
      exact ⟨j, hleader ▸ hfirst.holds.2, hscore, hreached⟩
    · intro hnone
      have hnot := hnone _ (Nat.lt_succ_of_le (leader_le score magnitude n))
      rcases leads_leader hnot with ⟨hnan, hzero⟩ | ⟨hnumber, -⟩
      · refine Or.inr fun i hi => ?_
        by_contra hnumber
        obtain ⟨k, hk⟩ := FirstHighest.exists_of_number (p := fun _ => True)
          ⟨i, hi, trivial, Bool.not_eq_true _ ▸ hnumber⟩
        have hfirst := hk.number
        rw [← hbest k (Or.inr ⟨hnone, hk⟩), hzero, hnan] at hfirst
        cases hfirst
      · exact Or.inl hnumber
  · intro hreaches k hk
    rcases hk with hk | ⟨hnone, hk⟩
    · obtain ⟨j, hj, hscore, hreached⟩ := hreaches.finite k hk
      have hfinite := isFinite_leader_of_reached hscore hreached
      obtain ⟨first, -, -, -, hfirst, hleast⟩ :=
        settled (isFinite_leader_of_le (hj.trans (Nat.le_of_lt_succ hk.lt)) hfinite)
      have hrange : (score k).isFinite = true ∧ first ≤ k :=
        ⟨hk.holds, (hleast j hfinite).trans hj⟩
      rcases Nat.lt_trichotomy (leader score magnitude n) k with hlt | heq | hlt
      · exact absurd (hk.first _ hlt hfirst.holds.1 hfirst.number)
          (hfirst.highest k hk.lt hrange)
      · exact heq
      · exact absurd (hfirst.first k hlt hrange hk.number)
          (hk.highest _ hfirst.lt hfirst.holds.1)
    · have hnot := hnone _ (Nat.lt_succ_of_le (leader_le score magnitude n))
      have hsame : FirstHighest (fun i => (score i).isFinite = false) magnitude (n + 1) k :=
        ⟨hk.lt, hnone k hk.lt, hk.number, fun i hi _ => hk.highest i hi trivial,
          fun i hi _ hnumber => hk.first i hi trivial hnumber⟩
      rcases leads_leader hnot with ⟨hnan, -⟩ | ⟨-, hfirst⟩
      · rcases hreaches.unbounded hnone with hnumber | hall
        · rw [hnan] at hnumber
          cases hnumber
        · have hnumber := hk.number
          rw [hall k hk.lt] at hnumber
          cases hnumber
      · exact hfirst.unique hsame

end Selection

namespace Search

variable {env : Platform} {K : Type} [LinearOrder K] (search : Search env K)
  (layout : Layout env.Sample) (b : Buffer env)

/-- The variables of the search when a candidate is the leader. -/
def candidate (i : Nat) : Maximum env where
  initialized := true
  index := i
  score := search.subFloat (search.absSample (layout.correlationWindow b i))
    (((List.range layout.asmLen).map fun j => b.energy (layout.historyLen + i + j)).foldl
      env.addFloat env.zeroFloat)
  correlationAbs := search.absSample (layout.correlationWindow b i)
  correlation := layout.correlationWindow b i

def scoreAt (i : Nat) : Extended K := search.value (search.candidate layout b i).score

def magnitudeAt (i : Nat) : Extended K :=
  search.value (search.candidate layout b i).correlationAbs

variable {layout}

theorem energyWindow_eq {i : Nat} (hi : i < layout.blockLen) :
    layout.energyWindow b i layout.asmLen =
      some ((List.range layout.asmLen).map fun j => b.energy (layout.historyLen + i + j)) := by
  apply if_neg
  have hlen := layout.overlapLen_add_one
  omega

theorem iteration_initial (hi : 0 < layout.blockLen) :
    search.iteration layout b 0 initialMaximum = some (search.candidate layout b 0) := by
  rw [iteration, energyWindow_eq b hi]
  rfl

omit [LinearOrder K] in
theorem update_candidate (k i : Nat) {update : Bool} {better : Prop} [Decidable better]
    (hupdate : update = true ↔ better) :
    ({ initialized := updateNobranch (search.candidate layout b k).initialized update true
       index := updateNobranch (search.candidate layout b k).index update i
       score := updateNobranch (search.candidate layout b k).score update
         (search.candidate layout b i).score
       correlationAbs := updateNobranch (search.candidate layout b k).correlationAbs update
         (search.candidate layout b i).correlationAbs
       correlation := updateNobranch (search.candidate layout b k).correlation update
         (search.candidate layout b i).correlation } : Maximum env) =
      if better then search.candidate layout b i else search.candidate layout b k := by
  by_cases hbetter : better
  · rw [if_pos hbetter, hupdate.mpr hbetter]
    rfl
  · rw [if_neg hbetter, Bool.eq_false_iff.mpr (mt hupdate.mp hbetter)]
    rfl

theorem iteration_candidate {i : Nat} (hi : i < layout.blockLen) (k : Nat) :
    search.iteration layout b i (search.candidate layout b k) =
      some (if Replaces (search.scoreAt layout b) (search.magnitudeAt layout b) k i then
        search.candidate layout b i else search.candidate layout b k) := by
  have hupdate : (!(search.candidate layout b k).initialized ||
      (search.scoreAt layout b i).isFinite &&
        decide (search.scoreAt layout b k < search.scoreAt layout b i) ||
      ((search.scoreAt layout b k).isFinite == false &&
        (search.scoreAt layout b i).isFinite == false) &&
          decide (search.magnitudeAt layout b k < search.magnitudeAt layout b i)) = true ↔
        Replaces (search.scoreAt layout b) (search.magnitudeAt layout b) k i := by
    simp [Replaces, candidate]
  rw [iteration, energyWindow_eq b hi, Option.map_some]
  exact congrArg some (search.update_candidate b k i hupdate)

/-- The variables of the search are those of the leader. -/
theorem loop_eq {n : Nat} (hn : n < layout.blockLen) :
    search.loop layout b (n + 1) = some (search.candidate layout b
      (leader (search.scoreAt layout b) (search.magnitudeAt layout b) n)) := by
  induction n with
  | zero => exact search.iteration_initial b hn
  | succ n ih =>
      rw [loop, ih (Nat.lt_of_succ_lt hn), Option.bind_some, search.iteration_candidate b hn,
        leader]
      split <;> rfl

/-- The search returns a candidate with the ambiguity of its correlation. It is
the best one exactly if a finite score is reached in time. -/
theorem best_candidate_iff {maxNumItems : Nat} (hpos : 1 ≤ maxNumItems)
    (hlen : maxNumItems ≤ layout.blockLen) :
    ∃ index position, search.findMaximumInBuffer layout b maxNumItems = some position ∧
      index < maxNumItems ∧ position.offset = b.offset + index ∧
      position.ambiguity = search.detectAmbiguity (layout.correlationWindow b index) ∧
      ((∀ k, IsBest (search.scoreAt layout b) (search.magnitudeAt layout b) maxNumItems k →
          index = k) ↔
        Reaches (search.scoreAt layout b) (search.magnitudeAt layout b) maxNumItems) := by
  obtain ⟨n, rfl⟩ := Nat.exists_eq_add_of_le' hpos
  have hfound : search.findMaximumInBuffer layout b (n + 1) = some
      { offset := b.offset + leader (search.scoreAt layout b) (search.magnitudeAt layout b) n
        ambiguity := search.detectAmbiguity (layout.correlationWindow b
          (leader (search.scoreAt layout b) (search.magnitudeAt layout b) n))
        sequence := sequenceUnused } := by
    rw [findMaximumInBuffer, search.loop_eq b hlen]
    rfl
  exact ⟨_, _, hfound, Nat.lt_succ_of_le (leader_le _ _ n), rfl, rfl, leader_isBest_iff n⟩

end Search

/-- Blocks of two symbols with an ASM of two. -/
def pairLayout : Layout exactPlatform.Sample where
  blockLen := 2
  asmLen := 2
  asmLen_pos := Nat.two_pos
  asmConj := fun _ => 1
  numHistoryFrames := 0
  numHead := 0

def exactSearch : Search exactPlatform ℚ where
  value := fun x => x
  absSample := fun x => finite (x.natAbs : ℚ)
  subFloat := fun x y => x - y
  detectAmbiguity := fun x => if 0 ≤ x then 0 else 1

/-- Three symbols with the correlations 1 and -5, where the energy of the first symbol is given. -/
def pairBuffer (energy : Extended ℚ) : Buffer exactPlatform where
  signal := fun _ => 0
  correlation := fun i => if i = 0 then 1 else -5
  energy := fun i => if i = 0 then energy else finite 0
  snrTags := []
  numItems := 3
  offsetCounter := 0

theorem best_candidate_iff_pair : ∃ index position,
    exactSearch.findMaximumInBuffer pairLayout (pairBuffer (finite 0)) 2 = some position ∧
      position.offset = (pairBuffer (finite 0)).offset + index ∧
      ∀ k, IsBest (exactSearch.scoreAt pairLayout (pairBuffer (finite 0)))
        (exactSearch.magnitudeAt pairLayout (pairBuffer (finite 0))) 2 k → index = k := by
  obtain ⟨index, position, hfound, -, hoffset, -, hiff⟩ :=
    exactSearch.best_candidate_iff (pairBuffer (finite 0)) (show 1 ≤ 2 by decide)
      (Nat.le_refl pairLayout.blockLen)
  have hfinite :
      (exactSearch.scoreAt pairLayout (pairBuffer (finite 0)) 0).isFinite = true := by
    decide +kernel
  refine ⟨index, position, hfound, hoffset, hiff.mpr ⟨?_, ?_⟩⟩
  · exact fun m _ => ⟨0, Nat.zero_le m, hfinite, Or.inl rfl⟩
  · intro hnone
    rw [hnone 0 Nat.two_pos] at hfinite
    cases hfinite

/-- A first score that is NaN is never replaced by the only finite one. -/
theorem finite_candidate_missed :
    exactSearch.findMaximumInBuffer pairLayout (pairBuffer nan) 2 = some ⟨0, 0, 0⟩ ∧
      IsBest (exactSearch.scoreAt pairLayout (pairBuffer nan))
        (exactSearch.magnitudeAt pairLayout (pairBuffer nan)) 2 1 := by
  refine ⟨by decide +kernel, Or.inl ⟨by decide, by decide +kernel, by decide +kernel, ?_, ?_⟩⟩
  · decide +kernel
  · decide +kernel

end GrCcsds.FrameSync
