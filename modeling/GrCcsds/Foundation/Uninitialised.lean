import Mathlib.Logic.Basic
import Mathlib.Tactic.Common

/-! # Buffers that are not initialised

A cell of a new buffer has no value until it is written. Accesses behind the end
of the buffer and reads of cells without a value are faults.
-/

namespace Foundation.Uninitialised

inductive Fault where
  | outside (index : Nat)
  | uninitialised (index : Nat)
deriving DecidableEq, Repr

abbrev Buffer (α : Type*) (size : Nat) := Vector (Option α) size

variable {α : Type*} {size : Nat}

namespace Buffer

def fresh (α : Type*) (size : Nat) : Buffer α size := Vector.replicate size none

def write (buffer : Buffer α size) (index : Nat) (x : α) : Except Fault (Buffer α size) :=
  if hinside : index < size then .ok (buffer.set index (some x)) else .error (.outside index)

def read (buffer : Buffer α size) (index : Nat) : Except Fault α :=
  if hinside : index < size then
    match buffer[index] with
    | some x => .ok x
    | none => .error (.uninitialised index)
  else .error (.outside index)

/-- Write values one after the other. -/
def writeAll : List α → (index : Nat) → Buffer α size → Except Fault (Buffer α size)
  | [], _, buffer => .ok buffer
  | x :: rest, index, buffer => (buffer.write index x).bind (writeAll rest (index + 1))

/-- The buffer after values have been written to its start. -/
def filled (values : List α) : Buffer α size := Vector.ofFn fun i => values[(i : Nat)]?

theorem filled_nil : filled [] = fresh α size := by
  ext i hi
  simp [filled, fresh]

theorem write_filled {values : List α} (hinside : values.length < size) (x : α) :
    (filled values : Buffer α size).write values.length x = .ok (filled (values ++ [x])) := by
  rw [write, dif_pos hinside]
  congr 1
  ext i hi
  simp only [filled, Vector.getElem_set, Vector.getElem_ofFn]
  rcases Nat.lt_trichotomy i values.length with hlt | rfl | hgt
  · rw [if_neg (Nat.ne_of_gt hlt), List.getElem?_append_left hlt]
  · simp
  · rw [if_neg (Nat.ne_of_lt hgt), List.getElem?_eq_none (Nat.le_of_lt hgt), List.getElem?_eq_none]
    rw [List.length_append]
    exact hgt

/-- Values that have a place fill the buffer from its start. -/
theorem writeAll_filled {written values : List α}
    (hinside : (written ++ values).length ≤ size) :
    writeAll values written.length (filled written : Buffer α size) =
      .ok (filled (written ++ values)) := by
  induction values generalizing written with
  | nil => rw [List.append_nil, writeAll]
  | cons x rest ih =>
      have hsplit : written ++ x :: rest = written ++ [x] ++ rest := by simp
      have hplace : written.length < size := by
        rw [List.length_append, List.length_cons] at hinside
        omega
      have hrest : writeAll rest (written ++ [x]).length
          (filled (written ++ [x]) : Buffer α size) = _ := ih (hsplit ▸ hinside)
      rw [List.length_append, List.length_singleton] at hrest
      rw [writeAll, write_filled hplace, hsplit]
      exact hrest

/-- The first value without a place ends the writes. -/
theorem writeAll_outside {written values : List α} (hwritten : written.length ≤ size)
    (houtside : size < (written ++ values).length) :
    writeAll values written.length (filled written : Buffer α size) = .error (.outside size) := by
  induction values generalizing written with
  | nil =>
      rw [List.append_nil] at houtside
      exact absurd hwritten (Nat.not_le_of_lt houtside)
  | cons x rest ih =>
      rcases Nat.lt_or_eq_of_le hwritten with hplace | hfull
      · have hsplit : written ++ x :: rest = written ++ [x] ++ rest := by simp
        have hwrittenNext : (written ++ [x]).length ≤ size := by
          rw [List.length_append]
          exact hplace
        have hrest : writeAll rest (written ++ [x]).length
            (filled (written ++ [x]) : Buffer α size) = _ := ih hwrittenNext (hsplit ▸ houtside)
        rw [List.length_append, List.length_singleton] at hrest
        rw [writeAll, write_filled hplace]
        exact hrest
      · rw [writeAll, hfull, write, dif_neg (Nat.lt_irrefl size)]
        rfl

theorem read_filled {values : List α} {index : Nat} (hindex : index < values.length)
    (hinside : index < size) :
    (filled values : Buffer α size).read index = .ok values[index] := by
  simp [read, filled, hinside, hindex]

theorem read_filled_of_le {values : List α} {index : Nat} (hindex : values.length ≤ index)
    (hinside : index < size) :
    (filled values : Buffer α size).read index = .error (.uninitialised index) := by
  simp [read, filled, hinside, hindex]

end Buffer

section Loop

variable {β ε : Type*} {f : α → Except ε β} {l : List α}

/-- A loop whose iterations all succeed collects their results. -/
theorem mapM_ok {g : α → β} (hok : ∀ x ∈ l, f x = .ok (g x)) : l.mapM f = .ok (l.map g) := by
  induction l with
  | nil => rfl
  | cons x rest ih =>
      have hrest : ∀ y ∈ rest, f y = .ok (g y) := fun y hy => hok y (List.mem_cons_of_mem _ hy)
      rw [List.mapM_cons, hok x List.mem_cons_self, ih hrest]
      rfl

/-- A loop that succeeds has succeeded in every iteration. -/
theorem ok_of_mapM_ok {results : List β} (hloop : l.mapM f = .ok results) :
    ∀ x ∈ l, ∃ y, f x = .ok y := by
  induction l generalizing results with
  | nil => exact fun x hx => absurd hx List.not_mem_nil
  | cons first rest ih =>
      rw [List.mapM_cons] at hloop
      cases hfirst : f first with
      | error fault =>
          rw [hfirst] at hloop
          cases hloop
      | ok y =>
          rw [hfirst] at hloop
          cases hrest : rest.mapM f with
          | error fault =>
              rw [hrest] at hloop
              cases hloop
          | ok ys =>
              intro x hx
              rcases List.mem_cons.mp hx with rfl | hmem
              · exact ⟨y, hfirst⟩
              · exact ih hrest x hmem

end Loop

end Foundation.Uninitialised
