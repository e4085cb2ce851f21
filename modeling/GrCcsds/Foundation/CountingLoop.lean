import Mathlib.Algebra.Order.Group.Nat
import Mathlib.Tactic.Common

/-! # Loops over a counter that wraps

A `for` loop whose counter has fewer values than the bound may have. Its body
may fail. If no multiple of the stride below the bound is followed by a wrap,
the loop makes a fixed number of iterations; a loop that ends has passed its
bound with every invariant of the body and of the counter.
-/

namespace Foundation.CountingLoop

variable {σ ε : Type*}

/-- `for (; i < bound; i += stride)` with a counter modulo `size`. It is stuck when it would
need more iterations than given. -/
def loop (size stride bound : Nat) (stuck : ε) (body : Nat → σ → Except ε σ) :
    (iterations : Nat) → Nat → σ → Except ε σ
  | 0, _, _ => .error stuck
  | iterations + 1, i, s =>
    if i < bound then
      (body i s).bind fun next =>
        loop size stride bound stuck body iterations ((i + stride) % size) next
    else .ok s

variable {size stride bound : Nat} {stuck : ε} {body : Nat → σ → Except ε σ}

/-- What the body keeps with the counter holds when the loop has ended. -/
theorem loop_ok {inv : Nat → σ → Prop}
    (hkeep : ∀ i s next, i < bound → inv i s → body i s = .ok next →
      inv ((i + stride) % size) next)
    {iterations i : Nat} {s last : σ} (hstart : inv i s)
    (hloop : loop size stride bound stuck body iterations i s = .ok last) :
    ∃ stop, bound ≤ stop ∧ inv stop last := by
  induction iterations generalizing i s with
  | zero => cases hloop
  | succ iterations ih =>
      unfold loop at hloop
      split at hloop
      next hinside =>
        cases hbody : body i s with
        | error fault =>
            rw [hbody] at hloop
            cases hloop
        | ok next =>
            rw [hbody] at hloop
            exact ih (hkeep i s next hinside hstart hbody) hloop
      next hpassed =>
        cases hloop
        exact ⟨i, Nat.le_of_not_lt hpassed, hstart⟩

/-- The counter never reaches a bound that it cannot represent. -/
theorem bound_lt_of_loop_ok {iterations i : Nat} {s last : σ} (hi : i < size)
    (hloop : loop size stride bound stuck body iterations i s = .ok last) : bound < size := by
  have hcounter : ∀ (i : Nat) (s next : σ), i < bound → i < size → body i s = .ok next →
      (i + stride) % size < size := by
    intro i _ _ _ hlt _
    exact Nat.mod_lt _ (Nat.zero_lt_of_lt hlt)
  obtain ⟨stop, hend, hsize⟩ := loop_ok hcounter hi hloop
  exact Nat.lt_of_le_of_lt hend hsize

/-- A loop that does not reach the end of its counter makes its iterations one by one. -/
theorem exists_loop_ok {inv : Nat → σ → Prop} {count : Nat}
    (hbound : bound ≤ count * stride) (hsize : count * stride < size)
    (hinside : ∀ k < count, k * stride < bound)
    (hbody : ∀ k < count, ∀ s, inv k s →
      ∃ next, body (k * stride) s = .ok next ∧ inv (k + 1) next)
    {s : σ} (hstart : inv 0 s) :
    ∃ last, loop size stride bound stuck body (count + 1) 0 s = .ok last ∧ inv count last := by
  have hfrom : ∀ remaining k s, k + remaining = count → inv k s →
      ∃ last, loop size stride bound stuck body (remaining + 1) (k * stride) s = .ok last ∧
        inv count last := by
    intro remaining
    induction remaining with
    | zero =>
        rintro k s rfl hk
        exact ⟨s, if_neg (Nat.not_lt_of_le hbound), hk⟩
    | succ remaining ih =>
        intro k s hcount hk
        have hlt : k < count := by omega
        obtain ⟨next, hnext, hinv⟩ := hbody k hlt s hk
        obtain ⟨last, hloop, hlast⟩ := ih (k + 1) next (by omega) hinv
        refine ⟨last, ?_, hlast⟩
        have hstep : (k * stride + stride) % size = (k + 1) * stride := by
          rw [← Nat.succ_mul]
          exact Nat.mod_eq_of_lt (Nat.lt_of_le_of_lt (Nat.mul_le_mul_right stride hlt) hsize)
        rw [loop, if_pos (hinside k hlt), hnext, ← hloop, ← hstep]
        rfl
  simpa using hfrom count 0 s (Nat.zero_add _) hstart

/-- A loop over every number whose body never fails ends if and only if its counter reaches the
bound, with the state of a fold. -/
theorem exists_loop_iff {f : Nat → σ → σ} {s last : σ} (hsize : 0 < size) :
    (∃ iterations, loop size 1 bound stuck (fun i s => .ok (f i s)) iterations 0 s = .ok last) ↔
      bound < size ∧ last = (List.range bound).foldl (fun s i => f i s) s := by
  constructor
  · rintro ⟨iterations, hloop⟩
    have hbound := bound_lt_of_loop_ok hsize hloop
    have hkeep : ∀ i t next, i < bound →
        (t = (List.range i).foldl (fun s i => f i s) s ∧ i ≤ bound) →
        (Except.ok (f i t) : Except ε σ) = .ok next →
        next = (List.range ((i + 1) % size)).foldl (fun s i => f i s) s ∧
          (i + 1) % size ≤ bound := by
      rintro i t next hi ⟨rfl, -⟩ hnext
      cases hnext
      rw [Nat.mod_eq_of_lt (Nat.lt_of_le_of_lt hi hbound), List.range_succ, List.foldl_append]
      exact ⟨rfl, hi⟩
    obtain ⟨stop, hstop, hlast, hle⟩ : ∃ stop, bound ≤ stop ∧
        (last = (List.range stop).foldl (fun s i => f i s) s ∧ stop ≤ bound) :=
      loop_ok hkeep ⟨rfl, Nat.zero_le _⟩ hloop
    obtain rfl := Nat.le_antisymm hle hstop
    exact ⟨hbound, hlast⟩
  · rintro ⟨hbound, rfl⟩
    have hbody : ∀ k < bound, ∀ t, t = (List.range k).foldl (fun s i => f i s) s →
        ∃ next, (Except.ok (f (k * 1) t) : Except ε σ) = .ok next ∧
          next = (List.range (k + 1)).foldl (fun s i => f i s) s := by
      rintro k - t rfl
      refine ⟨_, rfl, ?_⟩
      rw [Nat.mul_one, List.range_succ, List.foldl_append]
      rfl
    have hinside : ∀ k < bound, k * 1 < bound := by
      intro k hk
      rwa [Nat.mul_one]
    obtain ⟨last, hloop, rfl⟩ := @exists_loop_ok σ ε size 1 bound stuck
      (fun i t => .ok (f i t)) (fun k t => t = (List.range k).foldl (fun s i => f i s) s) bound
      (Nat.mul_one bound).ge (by rwa [Nat.mul_one]) hinside hbody s rfl
    exact ⟨bound + 1, hloop⟩

end Foundation.CountingLoop
