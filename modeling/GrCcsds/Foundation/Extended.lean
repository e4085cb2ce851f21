import Mathlib.Algebra.Order.Field.Basic
import Mathlib.Tactic.Common

/-! # Numbers with infinities and NaN

The values of a floating point type: the elements of a field, two infinities and
NaN. The operations on finite values are exact and the others follow IEEE 754,
where the only zero is the positive one. NaN compares with nothing.
-/

namespace Foundation

inductive Extended (K : Type*) where
  | finite (x : K)
  | infinite (negative : Bool)
  | nan
deriving DecidableEq

namespace Extended

variable {K : Type*}

def isFinite : Extended K → Bool
  | finite _ => true
  | _ => false

def isNaN : Extended K → Bool
  | nan => true
  | _ => false

theorem isNaN_eq_false_of_isFinite {x : Extended K} (hfinite : x.isFinite = true) :
    x.isNaN = false := by
  cases x <;> simp_all [isNaN, isFinite]

/-- The square root, from one of the values that are not negative. -/
def sqrt [Zero K] [LinearOrder K] (root : K → K) : Extended K → Extended K
  | finite x => if x < 0 then nan else finite (root x)
  | infinite negative => if negative then nan else infinite false
  | nan => nan

theorem sqrt_finite [Zero K] [LinearOrder K] {root : K → K} {x : K} (hx : 0 ≤ x) :
    (finite x).sqrt root = finite (root x) := if_neg (not_lt_of_ge hx)

section Sum

variable [Field K]

def add : Extended K → Extended K → Extended K
  | finite x, finite y => finite (x + y)
  | finite _, infinite second => infinite second
  | infinite first, finite _ => infinite first
  | infinite first, infinite second => if first = second then infinite first else nan
  | _, _ => nan

def neg : Extended K → Extended K
  | finite x => finite (-x)
  | infinite negative => infinite !negative
  | nan => nan

instance : Add (Extended K) := ⟨add⟩
instance : Sub (Extended K) := ⟨fun x y => x.add y.neg⟩

@[simp] theorem finite_add_finite (x y : K) : finite x + finite y = finite (x + y) := rfl

@[simp] theorem finite_sub_finite (x y : K) : finite x - finite y = finite (x - y) :=
  congrArg finite (sub_eq_add_neg x y).symm

end Sum

section Product

variable [Field K] [LinearOrder K]

def mul : Extended K → Extended K → Extended K
  | finite x, finite y => finite (x * y)
  | finite x, infinite second => if x = 0 then nan else infinite (decide (x < 0) != second)
  | infinite first, finite y => if y = 0 then nan else infinite (first != decide (y < 0))
  | infinite first, infinite second => infinite (first != second)
  | _, _ => nan

def div : Extended K → Extended K → Extended K
  | finite x, finite y =>
    if y = 0 then if x = 0 then nan else infinite (decide (x < 0)) else finite (x / y)
  | finite _, infinite _ => finite 0
  | infinite first, finite y => infinite (first != decide (y < 0))
  | _, _ => nan

instance : Mul (Extended K) := ⟨mul⟩
instance : Div (Extended K) := ⟨div⟩

@[simp] theorem finite_mul_finite (x y : K) : finite x * finite y = finite (x * y) := rfl

theorem finite_div_finite (x : K) {y : K} (hy : y ≠ 0) : finite x / finite y = finite (x / y) :=
  if_neg hy

theorem finite_div_zero {x : K} (hx : 0 < x) : finite x / finite 0 = infinite false := by
  change (if (0 : K) = 0 then if x = 0 then nan else infinite (decide (x < 0)) else _) = _
  rw [if_pos rfl, if_neg (ne_of_gt hx), decide_eq_false (not_lt_of_gt hx)]

@[simp] theorem zero_mul_infinite (negative : Bool) :
    finite (0 : K) * infinite negative = nan := if_pos rfl

end Product

section Order

variable [LinearOrder K]

protected def Lt : Extended K → Extended K → Prop
  | finite x, finite y => x < y
  | finite _, infinite second => second = false
  | infinite first, finite _ => first = true
  | infinite first, infinite second => first = true ∧ second = false
  | _, _ => False

instance : LT (Extended K) := ⟨Extended.Lt⟩

instance : DecidableLT (Extended K) := fun x y =>
  match x, y with
  | finite x, finite y => inferInstanceAs (Decidable (x < y))
  | finite _, infinite second => inferInstanceAs (Decidable (second = false))
  | infinite first, finite _ => inferInstanceAs (Decidable (first = true))
  | infinite first, infinite second =>
    inferInstanceAs (Decidable (first = true ∧ second = false))
  | nan, _ => isFalse not_false
  | finite _, nan => isFalse not_false
  | infinite _, nan => isFalse not_false

@[simp] theorem finite_lt_finite {x y : K} : finite x < finite y ↔ x < y := Iff.rfl

@[simp] theorem finite_lt_infinite {x : K} {negative : Bool} :
    finite x < infinite negative ↔ negative = false := Iff.rfl

@[simp] theorem infinite_lt_finite {x : K} {negative : Bool} :
    infinite negative < finite x ↔ negative = true := Iff.rfl

@[simp] theorem infinite_lt_infinite {first second : Bool} :
    (infinite first : Extended K) < infinite second ↔ first = true ∧ second = false := Iff.rfl

@[simp] theorem not_nan_lt (x : Extended K) : ¬ nan < x := not_false

@[simp] theorem not_lt_nan (x : Extended K) : ¬ x < nan := by
  cases x <;> exact not_false

theorem not_lt_self (x : Extended K) : ¬ x < x := by
  cases x with
  | finite x => simp
  | infinite negative => cases negative <;> simp
  | nan => simp

theorem lt_trans {x y z : Extended K} (hxy : x < y) (hyz : y < z) : x < z := by
  cases x <;> cases y <;> cases z <;> simp_all
  exact hxy.trans hyz

/-- Two numbers that are not NaN compare. -/
theorem trichotomy {x y : Extended K} (hx : x.isNaN = false) (hy : y.isNaN = false) :
    x < y ∨ x = y ∨ y < x := by
  cases x with
  | finite x =>
      cases y with
      | finite y => simpa using lt_trichotomy x y
      | infinite second => cases second <;> simp
      | nan => cases hy
  | infinite first =>
      cases y with
      | finite y => cases first <;> simp
      | infinite second => cases first <;> cases second <;> simp
      | nan => cases hy
  | nan => cases hx

theorem isNaN_eq_false_of_lt {x y : Extended K} (hlt : x < y) :
    x.isNaN = false ∧ y.isNaN = false := by
  cases x <;> cases y <;> simp_all [isNaN]

/-- Only the negative infinity is below a finite value and not finite. -/
theorem eq_infinite_of_lt {x y : Extended K} (hx : x.isFinite = false)
    (hy : y.isFinite = true) (hlt : x < y) : x = infinite true := by
  cases x <;> cases y <;> simp_all [isFinite]

theorem infinite_lt_of_isFinite {x : Extended K} (hx : x.isFinite = true) :
    infinite true < x := by
  cases x <;> simp_all [isFinite]

end Order

/-- The first of the indices below `n` with a property whose value is the highest. -/
structure FirstHighest [LinearOrder K] (p : Nat → Prop) (value : Nat → Extended K) (n k : Nat) :
    Prop where
  lt : k < n
  holds : p k
  number : (value k).isNaN = false
  highest : ∀ i < n, p i → ¬ value k < value i
  first : ∀ i < k, p i → (value i).isNaN = false → value i < value k

namespace FirstHighest

variable [LinearOrder K] {p : Nat → Prop} {value : Nat → Extended K} {n k : Nat}

theorem unique (hk : FirstHighest p value n k) {j : Nat} (hj : FirstHighest p value n j) :
    k = j := by
  rcases Nat.lt_trichotomy k j with hlt | heq | hlt
  · exact absurd (hj.first k hlt hk.holds hk.number) (hk.highest j hj.lt hj.holds)
  · exact heq
  · exact absurd (hk.first j hlt hj.holds hj.number) (hj.highest k hk.lt hk.holds)

/-- An index that is not better changes nothing. -/
theorem keep (hk : FirstHighest p value n k) (hnext : p n → ¬ value k < value n) :
    FirstHighest p value (n + 1) k where
  lt := Nat.lt_succ_of_lt hk.lt
  holds := hk.holds
  number := hk.number
  highest := by
    intro i hi hp
    rcases Nat.lt_succ_iff_lt_or_eq.mp hi with hlt | rfl
    · exact hk.highest i hlt hp
    · exact hnext hp
  first := hk.first

/-- A better index takes over. -/
theorem replace (hk : FirstHighest p value n k) (hp : p n) (hlt : value k < value n) :
    FirstHighest p value (n + 1) n where
  lt := Nat.lt_succ_self n
  holds := hp
  number := (isNaN_eq_false_of_lt hlt).2
  highest := by
    intro i hi hpi hbetter
    rcases Nat.lt_succ_iff_lt_or_eq.mp hi with hbefore | rfl
    · exact hk.highest i hbefore hpi (lt_trans hlt hbetter)
    · exact not_lt_self _ hbetter
  first := by
    intro i hi hpi hnumber
    rcases trichotomy hnumber hk.number with hless | heq | hgreater
    · exact lt_trans hless hlt
    · rwa [heq]
    · exact absurd hgreater (hk.highest i hi hpi)

/-- The only number is the highest. -/
theorem only (hp : p n) (hnumber : (value n).isNaN = false)
    (hbefore : ∀ i < n, p i → (value i).isNaN = true) : FirstHighest p value (n + 1) n where
  lt := Nat.lt_succ_self n
  holds := hp
  number := hnumber
  highest := by
    intro i hi hpi hbetter
    rcases Nat.lt_succ_iff_lt_or_eq.mp hi with hlt | rfl
    · have hnan := hbefore i hlt hpi
      rw [(isNaN_eq_false_of_lt hbetter).2] at hnan
      cases hnan
    · exact not_lt_self _ hbetter
  first := by
    intro i hi hpi hnot
    rw [hbefore i hi hpi] at hnot
    cases hnot

theorem exists_of_number (hnumber : ∃ i < n, p i ∧ (value i).isNaN = false) :
    ∃ k, FirstHighest p value n k := by
  induction n with
  | zero =>
      obtain ⟨i, hi, -⟩ := hnumber
      cases hi
  | succ n ih =>
      by_cases hearlier : ∃ i < n, p i ∧ (value i).isNaN = false
      · obtain ⟨k, hk⟩ := ih hearlier
        by_cases hbetter : p n ∧ value k < value n
        · exact ⟨n, hk.replace hbetter.1 hbetter.2⟩
        · exact ⟨k, hk.keep fun hp hlt => hbetter ⟨hp, hlt⟩⟩
      · obtain ⟨i, hi, hp, hnot⟩ := hnumber
        have hlast : i = n := by
          rcases Nat.lt_succ_iff_lt_or_eq.mp hi with hlt | heq
          · exact absurd ⟨i, hlt, hp, hnot⟩ hearlier
          · exact heq
        subst hlast
        refine ⟨i, only hp hnot ?_⟩
        intro j hj hpj
        cases hnan : (value j).isNaN with
        | false => exact absurd ⟨j, hj, hpj, hnan⟩ hearlier
        | true => rfl

end FirstHighest

end Extended

end Foundation
