import Mathlib.Algebra.GroupWithZero.Nat
import Mathlib.Logic.Function.Iterate
import Mathlib.Tactic.Common
import Mathlib.Tactic.Ring

/-! # Distances of paths

A machine reads bits, and its transitions have weights. Looking ahead step by
step gives lower bounds for the weights of the paths that come to rest. Where
the machine runs through the differences of two paths of a code, its weights
are their distances, and these say how many soft symbols may be wrong until
another path fits the symbols as well.
-/

namespace Foundation.FreeDistance

/-- Zero is the state of rest. -/
structure Machine where
  states : Nat
  next : Nat → Bool → Nat
  weight : Nat → Bool → Nat

namespace Machine

variable (m : Machine)

def final : Nat → List Bool → Nat
  | s, [] => s
  | s, bit :: rest => final (m.next s bit) rest

def total : Nat → List Bool → Nat
  | _, [] => 0
  | s, bit :: rest => m.weight s bit + total (m.next s bit) rest

/-- The paths that end at rest and read a set bit are not lighter than the first weight if they
begin at rest, and not lighter than the second one anywhere. -/
structure Separates (inside outside : Nat) : Prop where
  inside : ∀ bits, m.final 0 bits = 0 → true ∈ bits → inside ≤ m.total 0 bits
  outside : ∀ s < m.states, ∀ bits, m.final s bits = 0 → true ∈ bits → outside ≤ m.total s bits

/-- One more step of looking ahead, with the bounds for the states behind it. -/
def lookAhead (bound : List Nat) : List Nat :=
  (List.range m.states).map fun s =>
    if s = 0 then 0
    else min (m.weight s false + bound.getD (m.next s false) 0)
      (m.weight s true + bound.getD (m.next s true) 0)

/-- Bounds for the weight until the machine is at rest. -/
def toRest (rounds : Nat) : List Nat := m.lookAhead^[rounds] []

/-- A bound for the weight of leaving the rest and coming back. -/
def leaving (rounds : Nat) : Nat :=
  m.weight 0 true + (m.toRest rounds).getD (m.next 0 true) 0

/-- The same for the paths that read a set bit. -/
def lookAheadSet (rounds : Nat) (bound : List Nat) : List Nat :=
  (List.range m.states).map fun s =>
    if s = 0 then m.leaving rounds
    else min (m.weight s false + bound.getD (m.next s false) 0)
      (m.weight s true + (m.toRest rounds).getD (m.next s true) 0)

def withSet (rounds : Nat) : List Nat := (m.lookAheadSet rounds)^[rounds] []

variable {m}

theorem getD_map_range {n s : Nat} (f : Nat → Nat) :
    ((List.range n).map f).getD s 0 = if s < n then f s else 0 := by
  rw [List.getD_eq_getElem?_getD, List.getElem?_map]
  split
  next hs => rw [List.getElem?_range hs, Option.map_some, Option.getD_some]
  next hs =>
    rw [List.getElem?_eq_none (by rw [List.length_range]; omega), Option.map_none,
      Option.getD_none]

/-- Looking ahead keeps the bounds correct. -/
theorem toRest_le (rounds : Nat) {s : Nat} {bits : List Bool} (hfinal : m.final s bits = 0) :
    (m.toRest rounds).getD s 0 ≤ m.total s bits := by
  induction rounds generalizing s bits with
  | zero => exact Nat.zero_le _
  | succ rounds ih =>
      rw [toRest, Function.iterate_succ_apply', lookAhead, getD_map_range]
      split
      · split
        · exact Nat.zero_le _
        next hmoving =>
          cases bits with
          | nil => exact absurd hfinal hmoving
          | cons bit rest =>
              have hrest : (m.toRest rounds).getD (m.next s bit) 0 ≤ m.total (m.next s bit) rest :=
                ih hfinal
              rw [total]
              cases bit with
              | false => exact (Nat.min_le_left _ _).trans (Nat.add_le_add_left hrest _)
              | true => exact (Nat.min_le_right _ _).trans (Nat.add_le_add_left hrest _)
      · exact Nat.zero_le _

/-- A path that leaves the rest pays for it at its first set bit. -/
theorem leaving_le (hrest : m.next 0 false = 0) (rounds : Nat) {bits : List Bool}
    (hfinal : m.final 0 bits = 0) (hset : true ∈ bits) : m.leaving rounds ≤ m.total 0 bits := by
  induction bits with
  | nil => cases hset
  | cons bit rest ih =>
      rw [final] at hfinal
      rw [total]
      cases bit with
      | true => exact Nat.add_le_add_left (toRest_le rounds hfinal) _
      | false =>
          rw [hrest] at hfinal ⊢
          exact (ih hfinal (by simpa using hset)).trans (Nat.le_add_left _ _)

theorem withSet_le (hrest : m.next 0 false = 0) (rounds : Nat) {s : Nat} {bits : List Bool}
    (hfinal : m.final s bits = 0) (hset : true ∈ bits) :
    (m.withSet rounds).getD s 0 ≤ m.total s bits := by
  suffices hlooked : ∀ looks, ((m.lookAheadSet rounds)^[looks] []).getD s 0 ≤ m.total s bits from
    hlooked rounds
  intro looks
  induction looks generalizing s bits with
  | zero => exact Nat.zero_le _
  | succ looks ih =>
      rw [Function.iterate_succ_apply', lookAheadSet, getD_map_range]
      split
      · split
        next hs =>
          subst hs
          exact leaving_le hrest rounds hfinal hset
        next hmoving =>
          cases bits with
          | nil => cases hset
          | cons bit rest =>
              rw [final] at hfinal
              rw [total]
              cases bit with
              | true =>
                  exact (Nat.min_le_right _ _).trans
                    (Nat.add_le_add_left (toRest_le rounds hfinal) _)
              | false =>
                  exact (Nat.min_le_left _ _).trans
                    (Nat.add_le_add_left (ih hfinal (by simpa using hset)) _)
      · exact Nat.zero_le _

/-- The distances that have been found by looking ahead. -/
theorem separates_of_rounds (hrest : m.next 0 false = 0) {rounds inside outside : Nat}
    (hinside : inside ≤ m.leaving rounds)
    (houtside : ∀ s < m.states, outside ≤ (m.withSet rounds).getD s 0) :
    m.Separates inside outside where
  inside _ hfinal hset := hinside.trans (leaving_le hrest rounds hfinal hset)
  outside s hs _ hfinal hset := (houtside s hs).trans (withSet_le hrest rounds hfinal hset)

end Machine

section SoftSymbols

/-- How far a soft symbol is from the strongest one of a bit. -/
def symbolCost (bit : Bool) (symbol : UInt8) : Nat :=
  if bit then 255 - symbol.toNat else symbol.toNat

def cost (bits : List Bool) (symbols : List UInt8) : Nat :=
  (List.zipWith symbolCost bits symbols).sum

def distance (first second : List Bool) : Nat :=
  (List.zipWith (fun a b => (a ^^ b).toNat) first second).sum

/-- The number of symbols that are not nearer to their bit, by the margin, than to the other. -/
def weak (margin : Nat) (bits : List Bool) (symbols : List UInt8) : Nat :=
  (List.zipWith (fun bit symbol => (decide (255 < 2 * symbolCost bit symbol + margin)).toNat)
    bits symbols).sum

@[simp] theorem distance_nil : distance [] [] = 0 := rfl

theorem distance_append {first second : List Bool} (hlength : first.length = second.length)
    (rest others : List Bool) :
    distance (first ++ rest) (second ++ others) = distance first second + distance rest others := by
  rw [distance, List.zipWith_append hlength, List.sum_append]
  rfl

/-- The costs of both bits are complements. -/
theorem symbolCost_add_not (bit : Bool) (symbol : UInt8) :
    symbolCost bit symbol + symbolCost (!bit) symbol = 255 := by
  have hbyte : symbol.toNat < 256 := symbol.toNat_lt
  cases bit with
  | true => exact Nat.sub_add_cancel (Nat.le_of_lt_succ hbyte)
  | false => exact Nat.add_sub_cancel' (Nat.le_of_lt_succ hbyte)

theorem symbolCost_add_le (margin : Nat) (sent other : Bool) (symbol : UInt8) :
    symbolCost sent symbol + margin * (sent ^^ other).toNat ≤ symbolCost other symbol +
      (margin + 255) * (decide (255 < 2 * symbolCost sent symbol + margin)).toNat := by
  rcases Bool.eq_or_eq_not other sent with rfl | rfl
  · simp
  · have hcosts := symbolCost_add_not sent symbol
    rw [Bool.xor_not_self, Bool.toNat_true, Nat.mul_one]
    by_cases hweak : 255 < 2 * symbolCost sent symbol + margin
    · rw [decide_eq_true hweak, Bool.toNat_true, Nat.mul_one]
      omega
    · rw [decide_eq_false hweak, Bool.toNat_false, Nat.mul_zero]
      omega

/-- The other bits cost more by the margin for every difference, except at weak symbols. -/
theorem cost_add_le (margin : Nat) {sent other : List Bool} {symbols : List UInt8}
    (hsent : sent.length = symbols.length) (hother : other.length = symbols.length) :
    cost sent symbols + margin * distance sent other ≤
      cost other symbols + (margin + 255) * weak margin sent symbols := by
  induction symbols generalizing sent other with
  | nil =>
      obtain rfl := List.eq_nil_of_length_eq_zero hsent
      obtain rfl := List.eq_nil_of_length_eq_zero hother
      exact le_rfl
  | cons symbol rest ih =>
      obtain ⟨bit, sent, rfl⟩ := List.exists_cons_of_length_eq_add_one hsent
      obtain ⟨bit', other, rfl⟩ := List.exists_cons_of_length_eq_add_one hother
      have hrest := ih (Nat.succ.inj hsent) (Nat.succ.inj hother)
      have hfirst := symbolCost_add_le margin bit bit' symbol
      simp only [cost, distance, weak, List.zipWith_cons_cons, List.sum_cons] at hrest ⊢
      calc symbolCost bit symbol + _ + margin * ((bit ^^ bit').toNat + _)
        _ = (symbolCost bit symbol + margin * (bit ^^ bit').toNat) +
            ((List.zipWith symbolCost sent rest).sum +
              margin * (List.zipWith (fun a b => (a ^^ b).toNat) sent other).sum) := by ring
        _ ≤ _ := Nat.add_le_add hfirst hrest
        _ = _ := by ring

/-- Only as many symbols count as there are bits. -/
theorem weak_take (margin : Nat) (bits : List Bool) (symbols : List UInt8) :
    weak margin bits (symbols.take bits.length) = weak margin bits symbols := by
  have hzip : ∀ f : Bool → UInt8 → Nat,
      List.zipWith f bits (symbols.take bits.length) = List.zipWith f bits symbols := by
    intro f
    have htake : (List.zipWith f bits symbols).take bits.length = _ := List.take_zipWith
    rw [List.take_length, List.take_of_length_le] at htake
    · exact htake.symm
    · rw [List.length_zipWith]
      exact Nat.min_le_left _ _
  rw [weak, weak, hzip]

end SoftSymbols

end Foundation.FreeDistance
