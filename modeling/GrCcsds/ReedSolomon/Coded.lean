import GrCcsds.ReedSolomon.Chain

/-! # What the blocks make of a frame

The output of the encoder as a function of the frame alone, and the decoder on a
block that is close enough to it. What the buffers contain is of no importance.
-/

namespace GrCcsds.ReedSolomon

open Utils Foundation

/-- The block of the codewords of a frame. -/
def encoded (fec : Fec) (depth : Nat) (frame : List UInt8) : List UInt8 :=
  (List.range (255 * depth)).map fun p =>
    rowCodeword fec depth (fun i => frame.getD i 0) (p % depth) (Fin.ofNat 255 (p / depth))

variable {Metadata : Type} {fec : Fec} {depth : Nat} {frame : List UInt8}

@[simp] theorem length_encoded : (encoded fec depth frame).length = 255 * depth := by
  simp [encoded]

theorem encoded_getD {row : Nat} (hrow : row < depth) (column : Fin 255) :
    (encoded fec depth frame).getD (column * depth + row) 0 =
      rowCodeword fec depth (fun i => frame.getD i 0) row column := by
  have hinside : (column : Nat) * depth + row < 255 * depth := by
    rw [Nat.mul_comm 255]
    exact row_index_lt column.isLt hrow
  have hdepth := Nat.zero_lt_of_lt hrow
  have hquotient : (column * depth + row) / depth = column := by
    rw [Nat.mul_comm, Nat.mul_add_div hdepth, Nat.div_eq_of_lt hrow, Nat.add_zero]
  have hcolumn : Fin.ofNat 255 ((column * depth + row) / depth) = column := by
    rw [hquotient]
    exact Fin.ext (Nat.mod_eq_of_lt column.isLt)
  have hrest : (column * depth + row) % depth = row := by
    rw [Nat.mul_comm, Nat.mul_add_mod, Nat.mod_eq_of_lt hrow]
  simp only [encoded, List.getD_eq_getElem?_getD, List.getElem?_map,
    List.getElem?_range hinside, Option.map_some, Option.getD_some, hcolumn, hrest]

section Blocks

variable (hdepth : 0 < depth) (hsize : 255 * depth * depth < size32)
  (hframe : frame.length = 223 * depth)

include hdepth hsize hframe

theorem encodeProcessFrame_frame (buffers : EncodeBuffers) (header : Header Metadata) :
    ∃ next, encodeProcessFrame fec depth buffers (.frame header frame) =
      ([.frame header (encoded fec depth frame)], next) := by
  have hlong : ¬ frame.length % size32 < dataLen depth := by
    have hblock : 255 * depth < size32 :=
      Nat.lt_of_le_of_lt (Nat.le_mul_of_pos_right _ hdepth) hsize
    rw [hframe, dataLen_eq hsize hdepth, Nat.mod_eq_of_lt (by omega)]
    exact Nat.lt_irrefl _
  have hout : makeBlob (encodeFrame fec depth buffers fun i => frame.getD i 0).out
      (encoded fec depth frame).length = encoded fec depth frame := by
    refine makeBlob_eq fun p hp => ?_
    rw [length_encoded] at hp
    obtain ⟨row, column, hrow, hcolumn, rfl⟩ := exists_row hp
    rw [encoded_getD hrow ⟨column, hcolumn⟩]
    exact encodeFrame_out hsize fec buffers _ hrow ⟨column, hcolumn⟩
  rw [length_encoded] at hout
  refine ⟨encodeFrame fec depth buffers fun i => frame.getD i 0, ?_⟩
  rw [encodeProcessFrame, if_neg hlong, blockLen_eq hsize hdepth]
  dsimp only
  rw [hout]

end Blocks

section Received

/-- One row of a block as it has been received. -/
def receivedRow (depth : Nat) (received : List UInt8) (row : Nat) : Fin 255 → UInt8 :=
  fun column => received.getD (column * depth + row) 0

/-- The decoder publishes the data of the rows, unless one of them is not correctable. -/
def decodedFrame (fec : Fec) (depth : Nat) (received : List UInt8) : Option (List UInt8) :=
  if ∀ row < depth, 0 ≤ (fec.decodeRsCcsds (receivedRow depth received row)).1 then
    some ((List.range (223 * depth)).map fun p =>
      (fec.decodeRsCcsds (receivedRow depth received (p % depth))).2 (Fin.ofNat 255 (p / depth)))
  else none

variable (hdepth : 0 < depth) (hsize : 255 * depth * depth < size32)

include hdepth

theorem makeBlob_rows {out : Nat → UInt8} (word : Nat → Fin 255 → UInt8)
    (hout : ∀ row < depth, ∀ column : Fin 223,
      out (column * depth + row) = word row (Fin.castAdd 32 column)) :
    makeBlob out (223 * depth) =
      (List.range (223 * depth)).map fun p => word (p % depth) (Fin.ofNat 255 (p / depth)) := by
  apply List.map_congr_left
  intro p hp
  obtain ⟨row, column, hrow, hcolumn, rfl⟩ := exists_row (List.mem_range.mp hp)
  have hquotient : (column * depth + row) / depth = column := by
    rw [Nat.mul_comm, Nat.mul_add_div hdepth, Nat.div_eq_of_lt hrow, Nat.add_zero]
  have hrest : (column * depth + row) % depth = row := by
    rw [Nat.mul_comm, Nat.mul_add_mod, Nat.mod_eq_of_lt hrow]
  have hindex : Fin.ofNat 255 column = Fin.castAdd 32 (⟨column, hcolumn⟩ : Fin 223) :=
    Fin.ext (Nat.mod_eq_of_lt (by omega))
  rw [hquotient, hrest, hindex]
  exact hout row hrow ⟨column, hcolumn⟩

include hsize

/-- What the decoder publishes depends on the block alone. -/
theorem decodeProcessFrame_eq {received : List UInt8} (hlength : received.length = 255 * depth)
    (buffers : DecodeBuffers) {header : Header Metadata}
    (hnumber : header.frameNumber ≠ .wrongType) :
    ∃ next, decodeProcessFrame fec .berlekamp depth buffers (.frame header received) =
      .ok ((decodedFrame fec depth received).toList.map (.frame header), next) := by
  have hlong : ¬ received.length % size32 < blockLen depth := by
    have hblock : 255 * depth < size32 :=
      Nat.lt_of_le_of_lt (Nat.le_mul_of_pos_right _ hdepth) hsize
    rw [hlength, blockLen_eq hsize hdepth, Nat.mod_eq_of_lt hblock]
    exact Nat.lt_irrefl _
  by_cases hvalid : ∀ row < depth, 0 ≤ (fec.decodeRsCcsds (receivedRow depth received row)).1
  · obtain ⟨next, hdecode, hout⟩ : ∃ next, decodeFrame fec .berlekamp depth buffers
        (fun i => received.getD i 0) = .ok next ∧ ∀ row < depth, ∀ column : Fin 223,
          next.out (column * depth + row) =
            (fec.decodeRsCcsds (receivedRow depth received row)).2 (Fin.castAdd 32 column) :=
      decodeFrame_ok hsize hdepth fun row hrow => ⟨hvalid row hrow, rfl⟩
    refine ⟨next, ?_⟩
    rw [decodeProcessFrame, if_neg hnumber, if_neg hlong, hdecode, decodedFrame, if_pos hvalid,
      dataLen_eq hsize hdepth, ← makeBlob_rows hdepth
        (fun row => (fec.decodeRsCcsds (receivedRow depth received row)).2) hout]
    rfl
  · obtain ⟨row, hrow, hneg⟩ : ∃ row < depth,
        (fec.decodeRsCcsds (receivedRow depth received row)).1 < 0 := by
      simpa using hvalid
    obtain ⟨last, hdecode⟩ : ∃ last, decodeFrame fec .berlekamp depth buffers
        (fun i => received.getD i 0) = .error last :=
      decodeFrame_error hsize hdepth ⟨row, hrow, hneg⟩
    refine ⟨last, ?_⟩
    rw [decodeProcessFrame, if_neg hnumber, if_neg hlong, hdecode, decodedFrame, if_neg hvalid]
    rfl

omit hsize in
/-- Few wrong bytes in every codeword of a frame. -/
theorem decodedFrame_of_few (hframe : frame.length = 223 * depth) (hfec : fec.CorrectsSixteen)
    {received : List UInt8}
    (hfew : ∀ row < depth,
      (wrongInClass depth (encoded fec depth frame) received row).card ≤ 16) :
    decodedFrame fec depth received = some frame := by
  have hrows : ∀ row < depth,
      0 ≤ (fec.decodeRsCcsds (receivedRow depth received row)).1 ∧
      (fec.decodeRsCcsds (receivedRow depth received row)).2 =
        rowCodeword fec depth (fun i => frame.getD i 0) row :=
    fun row hrow => hfec.corrects _ _ ((hammingDist_row_le length_encoded hrow
      (encoded_getD hrow)).trans (hfew row hrow))
  have hout : ∀ row < depth, ∀ column : Fin 223, frame.getD (column * depth + row) 0 =
      (fec.decodeRsCcsds (receivedRow depth received row)).2 (Fin.castAdd 32 column) := by
    intro row hrow column
    rw [(hrows row hrow).2, rowCodeword, BlockCode.codeword, Fin.append_left]
    rfl
  have hblob : makeBlob (fun p => frame.getD p 0) (223 * depth) = _ := makeBlob_rows hdepth
    (fun row => (fec.decodeRsCcsds (receivedRow depth received row)).2) hout
  rw [decodedFrame, if_pos fun row hrow => (hrows row hrow).1, ← hblob, ← hframe,
    makeBlob_eq fun _ _ => rfl]

end Received

end GrCcsds.ReedSolomon
