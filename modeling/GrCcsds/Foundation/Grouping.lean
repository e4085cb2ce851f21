import Mathlib.Data.List.Basic
import Mathlib.Data.Multiset.Filter

/-! # Lists assembled from numbered groups

A list that lists one group after the other, in the order of the group numbers,
is ordered by number. Its restriction to one number is that group, and listing
the groups of a partition of a list only reorders the list.
-/

namespace Foundation.Grouping

variable {α : Type*}

section Keyed

variable {key : α → Option Nat} {group : Nat → List α}

/-- The elements of one number among numbered groups. -/
theorem filter_flatMap_range' (hkey : ∀ n, ∀ x ∈ group n, key x = some n)
    (start count number : Nat) :
    ((List.range' start count).flatMap group).filter (fun x => key x = some number) =
      if start ≤ number ∧ number < start + count then group number else [] := by
  induction count with
  | zero =>
      have hnone : ¬ (start ≤ number ∧ number < start + 0) := by omega
      rw [if_neg hnone]
      rfl
  | succ count ih =>
      rw [List.range'_concat, List.flatMap_append, List.filter_append, ih, Nat.one_mul]
      simp only [List.flatMap_cons, List.flatMap_nil, List.append_nil]
      by_cases hlast : number = start + count
      · subst hlast
        have hall : (group (start + count)).filter (fun x => key x = some (start + count)) =
            group (start + count) := by
          rw [List.filter_eq_self]
          intro x hx
          exact decide_eq_true (hkey _ x hx)
        rw [hall, if_neg (fun hcond => Nat.lt_irrefl _ hcond.2),
          if_pos ⟨Nat.le_add_right _ _, Nat.lt_succ_self _⟩]
        rfl
      · have hnone : (group (start + count)).filter (fun x => key x = some number) = [] := by
          rw [List.filter_eq_nil_iff]
          intro x hx hnumber
          have hsame := (hkey _ x hx).symm.trans (of_decide_eq_true hnumber)
          exact hlast (Option.some.inj hsame).symm
        rw [hnone, List.append_nil]
        congr 1
        rw [eq_iff_iff]
        omega

/-- Numbered groups in the order of their numbers are ordered by number. -/
theorem pairwise_flatMap_range' (hkey : ∀ n, ∀ x ∈ group n, key x = some n)
    (start count : Nat) :
    ((List.range' start count).flatMap group).Pairwise
      (fun x y => ∀ m ∈ key x, ∀ n ∈ key y, m ≤ n) := by
  rw [List.pairwise_flatMap]
  constructor
  · intro number _
    apply List.pairwise_of_forall_mem_list
    intro x hx y hy m hm n hn
    rw [hkey _ x hx] at hm
    rw [hkey _ y hy] at hn
    cases hm
    cases hn
    exact le_rfl
  · refine List.Pairwise.imp ?_ List.pairwise_lt_range'
    intro first second hlt x hx y hy m hm n hn
    rw [hkey _ x hx] at hm
    rw [hkey _ y hy] at hn
    cases hm
    cases hn
    exact hlt.le

end Keyed

/-- Listing the parts of a list with numbers from a range reorders the elements
with such a number. -/
theorem flatMap_range'_filter_perm (key : α → Nat) (keep : α → Prop) [DecidablePred keep]
    (xs : List α) (start count : Nat) :
    ((List.range' start count).flatMap fun n => xs.filter fun x => key x = n ∧ keep x).Perm
      (xs.filter fun x => start ≤ key x ∧ key x < start + count ∧ keep x) := by
  induction count with
  | zero =>
      have hnone : xs.filter (fun x => start ≤ key x ∧ key x < start + 0 ∧ keep x) = [] := by
        rw [List.filter_eq_nil_iff]
        intro x _ hx
        have hrange := of_decide_eq_true hx
        omega
      rw [hnone]
      exact List.Perm.refl _
  | succ count ih =>
      rw [List.range'_concat, List.flatMap_append, Nat.one_mul]
      simp only [List.flatMap_cons, List.flatMap_nil, List.append_nil]
      apply (ih.append_right _).trans
      rw [← Multiset.coe_eq_coe, ← Multiset.coe_add, ← Multiset.filter_coe,
        ← Multiset.filter_coe, ← Multiset.filter_coe, Multiset.filter_add_filter]
      have hdisjoint : Multiset.filter (fun x => (start ≤ key x ∧ key x < start + count ∧ keep x) ∧
          key x = start + count ∧ keep x) (xs : Multiset α) = 0 := by
        rw [Multiset.filter_eq_nil]
        rintro x _ ⟨⟨_, hlt, _⟩, heq, _⟩
        omega
      rw [hdisjoint, Multiset.add_zero]
      apply Multiset.filter_congr
      intro x _
      constructor
      · rintro (⟨hge, hlt, hkeep⟩ | ⟨heq, hkeep⟩)
        · exact ⟨hge, by omega, hkeep⟩
        · exact ⟨by omega, by omega, hkeep⟩
      · rintro ⟨hge, hlt, hkeep⟩
        by_cases hlast : key x = start + count
        · exact Or.inr ⟨hlast, hkeep⟩
        · exact Or.inl ⟨hge, by omega, hkeep⟩

/-- Two disjoint selections of a list, one after the other, reorder their union. -/
theorem filter_append_filter_perm (first second : α → Prop) [DecidablePred first]
    [DecidablePred second] (xs : List α) (hdisjoint : ∀ x ∈ xs, first x → ¬ second x) :
    (xs.filter first ++ xs.filter second).Perm (xs.filter fun x => first x ∨ second x) := by
  rw [← Multiset.coe_eq_coe, ← Multiset.coe_add, ← Multiset.filter_coe,
    ← Multiset.filter_coe, ← Multiset.filter_coe, Multiset.filter_add_filter]
  have hnone : Multiset.filter (fun x => first x ∧ second x) (xs : Multiset α) = 0 := by
    rw [Multiset.filter_eq_nil]
    rintro x hx ⟨hfirst, hsecond⟩
    exact hdisjoint x hx hfirst hsecond
  rw [hnone, Multiset.add_zero]

section Blocks

variable {β : Type*} {block : α → List β} {size : Nat} (hlength : ∀ x, (block x).length = size)

include hlength

theorem length_flatMap_blocks (xs : List α) : (xs.flatMap block).length = size * xs.length := by
  induction xs with
  | nil => rfl
  | cons x rest ih => simp [ih, hlength, Nat.mul_succ, Nat.add_comm]

/-- The elements of blocks of one size by the number of the block and the place in it. -/
theorem getElem?_flatMap_blocks (xs : List α) (i : Nat) {j : Nat} (hj : j < size) :
    (xs.flatMap block)[size * i + j]? = xs[i]?.bind fun x => (block x)[j]? := by
  induction xs generalizing i with
  | nil => simp
  | cons x rest ih =>
      rw [List.flatMap_cons]
      cases i with
      | zero => simp [List.getElem?_append_left, hlength, hj]
      | succ i =>
          have hindex : size * (i + 1) + j = (block x).length + (size * i + j) := by
            rw [hlength, Nat.mul_succ]
            omega
          rw [hindex, List.getElem?_append_right (Nat.le_add_right _ _), Nat.add_sub_cancel_left,
            ih, List.getElem?_cons_succ]

end Blocks

end Foundation.Grouping
