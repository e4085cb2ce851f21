import GrCcsds.ReedSolomon.Blocks

/-! # Rows of an interleaved block

For every depth whose largest index product fits into 32 bits, the loops of the
encoder and of the decoder collect the symbols of one residue class in one
piece of a buffer, and put such a piece back into its residue class.
-/

namespace GrCcsds.ReedSolomon

open Utils Foundation

variable {depth : Nat}

theorem dataLen_eq (hsize : 255 * depth * depth < size32) (hdepth : 0 < depth) :
    dataLen depth = 223 * depth := by
  have hle : 255 * depth ≤ 255 * depth * depth := Nat.le_mul_of_pos_right _ hdepth
  exact Nat.mod_eq_of_lt (by omega)

theorem parityLen_eq (hsize : 255 * depth * depth < size32) (hdepth : 0 < depth) :
    parityLen depth = 32 * depth := by
  have hle : 255 * depth ≤ 255 * depth * depth := Nat.le_mul_of_pos_right _ hdepth
  exact Nat.mod_eq_of_lt (by omega)

theorem blockLen_eq (hsize : 255 * depth * depth < size32) (hdepth : 0 < depth) :
    blockLen depth = 255 * depth := by
  have hle : 255 * depth ≤ 255 * depth * depth := Nat.le_mul_of_pos_right _ hdepth
  rw [blockLen, dataLen_eq hsize hdepth, parityLen_eq hsize hdepth, ← Nat.add_mul]
  exact Nat.mod_eq_of_lt (by omega)

/-- The interleaving index of a row of at most a codeword. -/
theorem interlIndx_of_le (hsize : 255 * depth * depth < size32) {size row column : Nat}
    (hle : size ≤ 255) (hrow : row < depth) (hcolumn : column < size) :
    interlIndx (row * size + column) depth (size * depth) = column * depth + row := by
  apply interlIndx_row hrow hcolumn
  exact Nat.lt_of_le_of_lt (Nat.mul_le_mul_right _ (Nat.mul_le_mul_right _ hle)) hsize

theorem row_offset_lt (hsize : 255 * depth * depth < size32) {size row : Nat} (hle : size ≤ 255)
    (hrow : row < depth) : row * size % size32 = row * size := by
  apply Nat.mod_eq_of_lt
  have hdepth : 0 < depth := Nat.zero_lt_of_lt hrow
  calc row * size ≤ depth * 255 := Nat.mul_le_mul hrow.le hle
    _ = 255 * depth := Nat.mul_comm _ _
    _ ≤ 255 * depth * depth := Nat.le_mul_of_pos_right _ hdepth
    _ < size32 := hsize

/-- The interleaving index does not map two indices of a block to one. -/
theorem interlIndx_injective (hsize : 255 * depth * depth < size32) {size : Nat}
    (hle : size ≤ 255) :
    ∀ i < size * depth, ∀ j < size * depth,
      interlIndx i depth (size * depth) = interlIndx j depth (size * depth) → i = j := by
  intro i hi j hj heq
  refine interlIndx_injOn ?_ hi hj heq
  exact Nat.lt_of_le_of_lt (Nat.mul_le_mul_right _ (Nat.mul_le_mul_right _ hle)) hsize

/-- A gather loop over an interleaved block puts each row into one piece. -/
theorem gather_row (hsize : 255 * depth * depth < size32) {size : Nat} (hle : size ≤ 255)
    (source buffer : Nat → UInt8) {row column : Nat} (hrow : row < depth)
    (hcolumn : column < size) :
    Memory.scatter id (fun i => source (interlIndx i depth (size * depth))) (size * depth)
      buffer (row * size + column) = source (column * depth + row) := by
  have hindex : row * size + column < size * depth := row_index_lt hrow hcolumn
  rw [← interlIndx_of_le hsize hle hrow hcolumn]
  exact Memory.scatter_apply (fun i => source (interlIndx i depth (size * depth))) buffer
    (fun i _ j _ heq => heq) hindex

/-- A scatter loop puts each row back into its residue class. -/
theorem scatter_row (hsize : 255 * depth * depth < size32) {size : Nat} (hle : size ≤ 255)
    (source buffer : Nat → UInt8) {row column : Nat} (hrow : row < depth)
    (hcolumn : column < size) :
    Memory.scatter (fun i => interlIndx i depth (size * depth)) source (size * depth)
      buffer (column * depth + row) = source (row * size + column) := by
  have hindex : row * size + column < size * depth := row_index_lt hrow hcolumn
  rw [← interlIndx_of_le hsize hle hrow hcolumn]
  exact Memory.scatter_apply source buffer (interlIndx_injective hsize hle) hindex

end GrCcsds.ReedSolomon
