import GrCcsds.Utils
import Mathlib.Data.Nat.Basic
import Mathlib.Data.Set.Function
import Mathlib.Tactic.Ring

/-! # Interleaving of code blocks

The index function of `interleaving_aux.h`. It multiplies the index modulo one
less than the number of elements, which transposes a matrix whose rows are the
codewords into one whose columns are.
-/

namespace GrCcsds.ReedSolomon

open Utils

/-- `interl_indx` on unsigned 32-bit values. The last index keeps its place. -/
def interlIndx (index interleavingDepth numElements : Nat) : Nat :=
  let maxIndex := (numElements + (size32 - 1)) % size32
  if index = maxIndex then index
  else index * interleavingDepth % size32 % maxIndex

/-- An index of a row is below the number of elements. -/
theorem row_index_lt {rows size row column : Nat} (hrow : row < rows) (hcolumn : column < size) :
    row * size + column < size * rows := by
  calc row * size + column < row * size + size := Nat.add_lt_add_left hcolumn _
    _ = (row + 1) * size := by ring
    _ ≤ rows * size := Nat.mul_le_mul_right _ hrow
    _ = size * rows := Nat.mul_comm _ _

/-- Only the last element of the last row has the last index. -/
theorem row_index_eq_last {rows size row column : Nat} (hrow : row < rows)
    (hcolumn : column < size) (hlast : row * size + column + 1 = size * rows) :
    row + 1 = rows ∧ column + 1 = size := by
  have hrows : row + 1 = rows := by
    by_contra hne
    have hmore : row + 1 < rows := Nat.lt_of_le_of_ne hrow hne
    have hnext := row_index_lt hmore hcolumn
    have hsize : (row + 1) * size = row * size + size := by ring
    omega
  refine ⟨hrows, ?_⟩
  subst hrows
  have hsize : size * (row + 1) = row * size + size := by ring
  omega

theorem exists_column {depth size i : Nat} (hi : i < size * depth) :
    ∃ row column, row < depth ∧ column < size ∧ i = row * size + column := by
  have hsize : 0 < size := by
    by_contra hzero
    rw [Nat.eq_zero_of_not_pos hzero, Nat.zero_mul] at hi
    exact Nat.not_lt_zero _ hi
  refine ⟨i / size, i % size, ?_, Nat.mod_lt _ hsize, (Nat.div_add_mod' i size).symm⟩
  exact Nat.div_lt_of_lt_mul hi

/-- Every index of an interleaved buffer belongs to one row. -/
theorem exists_row {depth size p : Nat} (hp : p < size * depth) :
    ∃ row column, row < depth ∧ column < size ∧ p = column * depth + row := by
  rw [Nat.mul_comm] at hp
  obtain ⟨column, row, hcolumn, hrow, heq⟩ := exists_column hp
  exact ⟨row, column, hrow, hcolumn, heq⟩

/-- Two places of a matrix with the same index are one. -/
theorem row_index_injective {size row column row' column' : Nat} (hcolumn : column < size)
    (hcolumn' : column' < size) (heq : row * size + column = row' * size + column') :
    row = row' ∧ column = column' := by
  have hrows := congrArg (· / size) heq
  have hcolumns := congrArg (· % size) heq
  simp only [Nat.mul_add_mod_self_right, Nat.mod_eq_of_lt hcolumn,
    Nat.mod_eq_of_lt hcolumn'] at hcolumns
  simp only [Nat.mul_comm _ size, Nat.mul_add_div (Nat.zero_lt_of_lt hcolumn),
    Nat.div_eq_of_lt hcolumn, Nat.div_eq_of_lt hcolumn', Nat.add_zero] at hrows
  exact ⟨hrows, hcolumns⟩

/-- Element `column` of codeword `row` is interleaved to row `column`. -/
theorem interlIndx_row {depth size row column : Nat} (hrow : row < depth)
    (hcolumn : column < size) (hsize : size * depth * depth < size32) :
    interlIndx (row * size + column) depth (size * depth) = column * depth + row := by
  have hindex := row_index_lt hrow hcolumn
  have htransposed : column * depth + row < size * depth := by
    rw [Nat.mul_comm size depth]
    exact row_index_lt hcolumn hrow
  have hcount : size * depth < size32 :=
    Nat.lt_of_le_of_lt (Nat.le_mul_of_pos_right _ (Nat.zero_lt_of_lt hrow)) hsize
  have hmax : (size * depth + (size32 - 1)) % size32 = size * depth - 1 := by
    have hwrap : size * depth + (size32 - 1) = size * depth - 1 + size32 := by
      have hpos : 0 < size32 := by decide
      omega
    rw [hwrap, Nat.add_mod_right, Nat.mod_eq_of_lt (by omega)]
  have hproduct : (row * size + column) * depth < size32 :=
    Nat.lt_of_le_of_lt (Nat.mul_le_mul_right _ hindex.le) hsize
  unfold interlIndx
  rw [hmax, Nat.mod_eq_of_lt hproduct]
  by_cases hlast : row * size + column = size * depth - 1
  · obtain ⟨rfl, rfl⟩ := row_index_eq_last hrow hcolumn (by omega)
    rw [if_pos hlast]
    ring
  · have hnotLast : column * depth + row ≠ size * depth - 1 := by
      intro heq
      have hboth := row_index_eq_last hcolumn hrow (by rw [Nat.mul_comm depth size]; omega)
      apply hlast
      have hcells : (column + 1) * (row + 1) = row * (column + 1) + column + 1 := by ring
      rw [← hboth.1, ← hboth.2, hcells]
      rfl
    have hsplit : (row * size + column) * depth =
        column * depth + row + (size * depth - 1) * row := by
      have hle : row ≤ size * depth * row := Nat.le_mul_of_pos_left _ (by omega)
      rw [Nat.sub_mul, Nat.one_mul]
      calc (row * size + column) * depth = column * depth + size * depth * row := by ring
        _ = column * depth + row + (size * depth * row - row) := by omega
    rw [if_neg hlast, hsplit, Nat.add_mul_mod_self_left, Nat.mod_eq_of_lt (by omega)]

section Transposition

variable {depth size : Nat} (hsize : size * depth * depth < size32)

include hsize

theorem interlIndx_mapsTo :
    Set.MapsTo (fun i => interlIndx i depth (size * depth)) (Set.Iio (size * depth))
      (Set.Iio (size * depth)) := by
  intro i hi
  obtain ⟨row, column, hrow, hcolumn, rfl⟩ := exists_column hi
  simp only [interlIndx_row hrow hcolumn hsize, Set.mem_Iio]
  rw [Nat.mul_comm size depth]
  exact row_index_lt hcolumn hrow

theorem interlIndx_injOn :
    Set.InjOn (fun i => interlIndx i depth (size * depth)) (Set.Iio (size * depth)) := by
  intro i hi j hj heq
  obtain ⟨row, column, hrow, hcolumn, rfl⟩ := exists_column hi
  obtain ⟨row', column', hrow', hcolumn', rfl⟩ := exists_column hj
  simp only [interlIndx_row hrow hcolumn hsize, interlIndx_row hrow' hcolumn' hsize] at heq
  obtain ⟨hcolumns, hrows⟩ := row_index_injective hrow hrow' heq
  rw [hrows, hcolumns]

theorem interlIndx_surjOn :
    Set.SurjOn (fun i => interlIndx i depth (size * depth)) (Set.Iio (size * depth))
      (Set.Iio (size * depth)) := by
  intro p hp
  obtain ⟨row, column, hrow, hcolumn, rfl⟩ := exists_row hp
  exact ⟨row * size + column, row_index_lt hrow hcolumn, interlIndx_row hrow hcolumn hsize⟩

/-- Interleaving with the lengths exchanged puts every index back. -/
theorem interlIndx_leftInverse (hsize' : size * size * depth < size32) {i : Nat}
    (hi : i < size * depth) :
    interlIndx (interlIndx i depth (size * depth)) size (size * depth) = i := by
  obtain ⟨row, column, hrow, hcolumn, rfl⟩ := exists_column hi
  rw [interlIndx_row hrow hcolumn hsize, Nat.mul_comm size depth]
  refine interlIndx_row hcolumn hrow ?_
  rwa [Nat.mul_comm depth size, Nat.mul_right_comm]

end Transposition

/-- The interleaving index transposes a matrix of `depth` rows, permutes its
indices, and is undone by the index function of its columns. -/
theorem interlIndx_transposes (depth size : Nat) (hsize : size * depth * depth < size32) :
    (∀ row < depth, ∀ column < size,
      interlIndx (row * size + column) depth (size * depth) = column * depth + row) ∧
    Set.BijOn (fun i => interlIndx i depth (size * depth)) (Set.Iio (size * depth))
      (Set.Iio (size * depth)) ∧
    (size * size * depth < size32 →
      Set.InvOn (fun i => interlIndx i size (size * depth))
        (fun i => interlIndx i depth (size * depth)) (Set.Iio (size * depth))
        (Set.Iio (size * depth))) := by
  refine ⟨?_, ?_, ?_⟩
  · intro row hrow column hcolumn
    exact interlIndx_row hrow hcolumn hsize
  · exact ⟨interlIndx_mapsTo hsize, interlIndx_injOn hsize, interlIndx_surjOn hsize⟩
  · intro hsize'
    constructor
    · intro i hi
      exact interlIndx_leftInverse hsize hsize' hi
    · intro p hp
      have hback : interlIndx (interlIndx p size (depth * size)) depth (depth * size) = p := by
        apply interlIndx_leftInverse
        · rwa [Nat.mul_comm depth size, Nat.mul_right_comm]
        · rwa [Nat.mul_right_comm, Nat.mul_comm depth size]
        · rwa [Nat.mul_comm]
      rwa [Nat.mul_comm depth size] at hback

theorem interlIndx_transposes_fiveRows :
    Set.BijOn (fun i => interlIndx i 5 (255 * 5)) (Set.Iio (255 * 5)) (Set.Iio (255 * 5)) ∧
    Set.InvOn (fun i => interlIndx i 255 (255 * 5)) (fun i => interlIndx i 5 (255 * 5))
      (Set.Iio (255 * 5)) (Set.Iio (255 * 5)) :=
  ⟨(interlIndx_transposes 5 255 (by decide)).2.1,
    (interlIndx_transposes 5 255 (by decide)).2.2 (by decide)⟩

end GrCcsds.ReedSolomon
