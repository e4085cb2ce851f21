import GrCcsds.Foundation.WhileLoop
import Mathlib.Algebra.Order.ToIntervalMod

/-! # Reduction to an interval by repeated subtraction

A loop that subtracts a period while a value lies above an interval of that
length, and one that adds it while the value lies at or below, both end with
the representative of the value in the interval.
-/

namespace Foundation.Wrapping

open WhileLoop

variable {G : Type*} [AddCommGroup G] [LinearOrder G] [IsOrderedAddMonoid G] [Archimedean G]
  {period low high x : G}

theorem toIocMod_of_mem (hperiod : 0 < period) (hhigh : low + period = high) (hlow : low < x)
    (hle : x ≤ high) : toIocMod hperiod low x = x :=
  (toIocMod_eq_self hperiod).mpr ⟨hlow, hhigh ▸ hle⟩

/-- Subtracting the period from above reaches the interval. -/
theorem ends_lower (hperiod : 0 < period) (hhigh : low + period = high) (hlow : low < x) :
    Ends (fun fuel => whileLoop (fun x => decide (high < x)) (fun x => x - period) fuel x)
      (toIocMod hperiod low x) := by
  obtain ⟨n, hn⟩ := Archimedean.arch (x - high) hperiod
  induction n generalizing x with
  | zero =>
      have hle : x ≤ high := by simpa using hn
      rw [toIocMod_of_mem hperiod hhigh hlow hle]
      exact ends_of_not (by simpa using hle)
  | succ n ih =>
      by_cases habove : high < x
      · have hnext : low < x - period := by rwa [lt_sub_iff_add_lt, hhigh]
        have hbound : x - period - high ≤ n • period := by
          rw [sub_right_comm, sub_le_iff_le_add, ← succ_nsmul]
          exact hn
        have hends := ih hnext hbound
        rw [toIocMod_sub] at hends
        exact ends_of_body (by simpa using habove) hends
      · rw [toIocMod_of_mem hperiod hhigh hlow (not_lt.mp habove)]
        exact ends_of_not (by simpa using habove)

/-- Adding the period from below reaches the interval. -/
theorem ends_raise (hperiod : 0 < period) (hhigh : low + period = high) (hle : x ≤ high) :
    Ends (fun fuel => whileLoop (fun x => decide (x ≤ low)) (fun x => x + period) fuel x)
      (toIocMod hperiod low x) := by
  obtain ⟨n, hn⟩ := Archimedean.arch (high - x) hperiod
  induction n generalizing x with
  | zero =>
      have heq : x = high := le_antisymm hle (by simpa using hn)
      have hlow : low < x := by rw [heq, ← hhigh]; exact lt_add_of_pos_right _ hperiod
      rw [toIocMod_of_mem hperiod hhigh hlow hle]
      exact ends_of_not (by simpa using hlow)
  | succ n ih =>
      by_cases hbelow : x ≤ low
      · have hnext : x + period ≤ high := by rw [← hhigh]; exact add_le_add_left hbelow _
        have hbound : high - (x + period) ≤ n • period := by
          rw [← sub_sub, sub_le_iff_le_add, ← succ_nsmul]
          exact hn
        have hends := ih hnext hbound
        rw [toIocMod_add_right] at hends
        exact ends_of_body (by simpa using hbelow) hends
      · rw [toIocMod_of_mem hperiod hhigh (not_le.mp hbelow) hle]
        exact ends_of_not (by simpa using hbelow)

end Foundation.Wrapping
