import Mathlib.Logic.Function.Basic
import Mathlib.Order.Basic
import Mathlib.Tactic.Common

/-! # Flat memory and the loops that fill it

A memory maps addresses to values. Blocks of a fixed size are read and written
at an offset, and a loop stores one value at an address of its own in every
iteration. A loop over disjoint addresses leaves each address with the value
of its one iteration.
-/

namespace Foundation.Memory

variable {α : Type*} {size : Nat}

/-- The block at an offset. -/
def read (memory : Nat → α) (offset : Nat) : Fin size → α := fun i => memory (offset + i)

/-- Overwrite the block at an offset. -/
def write (offset : Nat) (block : Fin size → α) (memory : Nat → α) : Nat → α :=
  fun address =>
    if h : offset ≤ address ∧ address - offset < size then block ⟨address - offset, h.2⟩
    else memory address

/-- Copy the first `count` values of a source to a destination. -/
def copy (destination count : Nat) (source : Nat → α) (memory : Nat → α) : Nat → α :=
  fun address =>
    if destination ≤ address ∧ address < destination + count then source (address - destination)
    else memory address

/-- A loop whose iteration `i` stores `value i` at `address i`. -/
def scatter (address : Nat → Nat) (value : Nat → α) : Nat → (Nat → α) → Nat → α
  | 0, memory => memory
  | count + 1, memory =>
    Function.update (scatter address value count memory) (address count) (value count)

/-- A loop whose iteration `i` stores a block at `offset i`. -/
def writeAll (offset : Nat → Nat) (block : Nat → Fin size → α) : Nat → (Nat → α) → Nat → α
  | 0, memory => memory
  | count + 1, memory => write (offset count) (block count) (writeAll offset block count memory)

@[simp] theorem read_apply (memory : Nat → α) (offset : Nat) (i : Fin size) :
    read memory offset i = memory (offset + i) := rfl

theorem write_inside (offset : Nat) (block : Fin size → α) (memory : Nat → α) (i : Fin size) :
    write offset block memory (offset + i) = block i := by
  have hinside : offset ≤ offset + i.val ∧ offset + i.val - offset < size := by
    rw [Nat.add_sub_cancel_left]
    exact ⟨Nat.le_add_right _ _, i.isLt⟩
  rw [write, dif_pos hinside]
  congr 1
  exact Fin.ext (Nat.add_sub_cancel_left _ _)

theorem write_outside {offset : Nat} (block : Fin size → α) (memory : Nat → α) {address : Nat}
    (houtside : address < offset ∨ offset + size ≤ address) :
    write offset block memory address = memory address := by
  rw [write, dif_neg]
  rintro ⟨hle, hlt⟩
  omega

theorem copy_inside (destination : Nat) {count i : Nat} (source memory : Nat → α)
    (hi : i < count) : copy destination count source memory (destination + i) = source i := by
  rw [copy, if_pos ⟨Nat.le_add_right _ _, Nat.add_lt_add_left hi _⟩, Nat.add_sub_cancel_left]

theorem copy_outside {destination count : Nat} (source memory : Nat → α) {address : Nat}
    (houtside : address < destination ∨ destination + count ≤ address) :
    copy destination count source memory address = memory address := by
  rw [copy, if_neg]
  intro hinside
  omega

/-- A loop over different addresses leaves the value of each iteration. -/
theorem scatter_apply {address : Nat → Nat} {count : Nat} (value : Nat → α)
    (memory : Nat → α)
    (hinjective : ∀ i < count, ∀ j < count, address i = address j → i = j)
    {i : Nat} (hi : i < count) :
    scatter address value count memory (address i) = value i := by
  induction count with
  | zero => exact absurd hi (Nat.not_lt_zero _)
  | succ count ih =>
      rw [scatter]
      rcases Nat.lt_succ_iff_lt_or_eq.mp hi with hlt | rfl
      · have hne : address i ≠ address count := by
          intro heq
          exact Nat.ne_of_lt hlt (hinjective i hi count (Nat.lt_succ_self _) heq)
        rw [Function.update_of_ne hne]
        apply ih _ hlt
        intro a ha b hb
        exact hinjective a (Nat.lt_succ_of_lt ha) b (Nat.lt_succ_of_lt hb)
      · rw [Function.update_self]

/-- A loop over disjoint blocks leaves the block of each iteration. -/
theorem writeAll_apply {offset : Nat → Nat} {count : Nat} (block : Nat → Fin size → α)
    (memory : Nat → α)
    (hdisjoint : ∀ i < count, ∀ j < count, i < j → offset i + size ≤ offset j)
    {i : Nat} (hi : i < count) (k : Fin size) :
    writeAll offset block count memory (offset i + k) = block i k := by
  induction count with
  | zero => exact absurd hi (Nat.not_lt_zero _)
  | succ count ih =>
      rw [writeAll]
      rcases Nat.lt_succ_iff_lt_or_eq.mp hi with hlt | rfl
      · have hbefore : offset i + size ≤ offset count :=
          hdisjoint i hi count (Nat.lt_succ_self _) hlt
        rw [write_outside _ _ (Or.inl (by omega))]
        apply ih _ hlt
        intro a ha b hb
        exact hdisjoint a (Nat.lt_succ_of_lt ha) b (Nat.lt_succ_of_lt hb)
      · exact write_inside _ _ _ _

/-- A loop over blocks leaves every address outside of them. -/
theorem writeAll_outside {offset : Nat → Nat} {count : Nat} (block : Nat → Fin size → α)
    (memory : Nat → α) {address : Nat}
    (houtside : ∀ i < count, address < offset i ∨ offset i + size ≤ address) :
    writeAll offset block count memory address = memory address := by
  induction count with
  | zero => rfl
  | succ count ih =>
      rw [writeAll, write_outside _ _ (houtside count (Nat.lt_succ_self _))]
      apply ih
      intro i hi
      exact houtside i (Nat.lt_succ_of_lt hi)

/-- A loop depends only on the blocks of its iterations. -/
theorem writeAll_congr {block other : Nat → Fin size → α} {count : Nat}
    (heq : ∀ i < count, block i = other i) (offset : Nat → Nat) (memory : Nat → α) :
    writeAll offset block count memory = writeAll offset other count memory := by
  induction count with
  | zero => rfl
  | succ count ih =>
      rw [writeAll, writeAll, heq count (Nat.lt_succ_self _),
        ih fun i hi => heq i (Nat.lt_succ_of_lt hi)]

end Foundation.Memory
