import Mathlib.Algebra.Order.Group.Nat
import Mathlib.Tactic.Common

/-! # Ring positions relative to a moving head

A ring of `size` cells is addressed by the distance `back` from its head.
Moving the head forward by one cell shifts every distance by one, and the cell
that the new head occupies is the one that was `size - 1` cells behind.
-/

namespace Foundation.Ring

/-- The cell that lies `back` cells behind the head. -/
def index (size head back : Nat) : Nat := (size + head - back) % size

variable {size head back : Nat}

theorem index_of_le (hhead : head < size) (hback : back ≤ head) :
    index size head back = head - back := by
  unfold index
  have hsplit : size + head - back = head - back + size := by omega
  rw [hsplit, Nat.add_mod_right, Nat.mod_eq_of_lt (by omega)]

theorem index_of_lt (hback : head < back) (hsize : back ≤ size) :
    index size head back = size + head - back := by
  unfold index
  exact Nat.mod_eq_of_lt (by omega)

/-- Going back by a full turn ends at the head. -/
theorem index_size (hhead : head < size) : index size head size = head := by
  unfold index
  rw [Nat.add_sub_cancel_left, Nat.mod_eq_of_lt hhead]

/-- Distances below the size of the ring address different cells. -/
theorem index_injective {first second : Nat} (hhead : head < size)
    (hfirst : first < size) (hsecond : second < size)
    (heq : index size head first = index size head second) : first = second := by
  rcases Nat.lt_or_ge head first with hf | hf <;> rcases Nat.lt_or_ge head second with hs | hs
  · rw [index_of_lt hf hfirst.le, index_of_lt hs hsecond.le] at heq
    omega
  · rw [index_of_lt hf hfirst.le, index_of_le hhead hs] at heq
    omega
  · rw [index_of_le hhead hf, index_of_lt hs hsecond.le] at heq
    omega
  · rw [index_of_le hhead hf, index_of_le hhead hs] at heq
    omega

/-- Moving the head forward leaves every cell in place, one step further back. -/
theorem index_advance (hhead : head < size) (hback : back < size) :
    index size ((head + 1) % size) (back + 1) = index size head back := by
  rcases Nat.lt_or_ge (head + 1) size with hlt | hge
  · rw [Nat.mod_eq_of_lt hlt]
    rcases Nat.lt_or_ge head back with hb | hb
    · rw [index_of_lt (by omega) (by omega), index_of_lt hb hback.le]
      omega
    · rw [index_of_le hlt (by omega), index_of_le hhead hb]
      omega
  · have hlast : head + 1 = size := by omega
    rw [hlast, Nat.mod_self, index_of_lt (by omega) (by omega),
      index_of_le hhead (by omega)]
    omega

/-- The head itself is at distance zero. -/
theorem index_zero (hhead : head < size) : index size head 0 = head := by
  rw [index_of_le hhead (Nat.zero_le _), Nat.sub_zero]

end Foundation.Ring
