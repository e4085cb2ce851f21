import GrCcsds.Foundation.BlockCode
import GrCcsds.ReedSolomon.Rows
import Mathlib.Data.UInt
import Mathlib.FieldTheory.Finite.GaloisField

/-! # The interleaved Reed-Solomon chain

Codeword `row` of a block occupies the positions of one residue class modulo
the interleaving depth, in the encoder and in the decoder alike. Errors in a
block are therefore corrected as long as they are few in every residue class,
which includes every burst that is not too long.
-/

namespace GrCcsds.ReedSolomon

open Utils Foundation

/-- The Berlekamp codec of libfec is a systematic code that corrects up to
sixteen wrong symbols. -/
structure Fec.CorrectsSixteen (fec : Fec) : Prop where
  corrects : ∀ data word,
    hammingDist (BlockCode.codeword fec.encodeRsCcsds data) word ≤ 16 →
      0 ≤ (fec.decodeRsCcsds word).1 ∧
        (fec.decodeRsCcsds word).2 = BlockCode.codeword fec.encodeRsCcsds data

/-- The data symbols of one codeword of an interleaved frame. -/
def rowData (depth : Nat) (dataIn : Nat → UInt8) (row : Nat) : Fin 223 → UInt8 :=
  fun column => dataIn (column * depth + row)

/-- The codeword that the encoder puts into one residue class. -/
def rowCodeword (fec : Fec) (depth : Nat) (dataIn : Nat → UInt8) (row : Nat) :
    Fin 255 → UInt8 :=
  BlockCode.codeword fec.encodeRsCcsds (rowData depth dataIn row)

/-- The positions of one residue class at which two blocks differ. -/
def wrongInClass (depth : Nat) (sent received : List UInt8) (row : Nat) : Finset Nat :=
  (Finset.range sent.length).filter fun p =>
    p % depth = row ∧ sent.getD p 0 ≠ received.getD p 0

section Encoder

variable {depth : Nat} (hsize : 255 * depth * depth < size32)

include hsize

/-- The piece of the data buffer that the encoder passes on for one row. -/
theorem read_gathered (dataIn buffer : Nat → UInt8) {row : Nat} (hrow : row < depth) :
    Memory.read (Memory.scatter id (fun i => dataIn (interlIndx i depth (223 * depth)))
      (223 * depth) buffer) (row * 223 % size32) = rowData depth dataIn row := by
  funext column
  rw [Memory.read_apply, row_offset_lt hsize (by decide) hrow,
    gather_row hsize (by decide) _ _ hrow column.isLt]
  rfl

/-- The parity loop of the encoder. -/
theorem parity_row (block : Nat → Fin 32 → UInt8) (buffer : Nat → UInt8) {row : Nat}
    (hrow : row < depth) (column : Fin 32) :
    Memory.writeAll (fun i => i * 32 % size32) block depth buffer (row * 32 + column) =
      block row column := by
  have hdisjoint : ∀ i < depth, ∀ j < depth, i < j →
      i * 32 % size32 + 32 ≤ j * 32 % size32 := by
    intro i hi j hj hlt
    rw [row_offset_lt hsize (by decide) hi, row_offset_lt hsize (by decide) hj]
    calc i * 32 + 32 = (i + 1) * 32 := (Nat.succ_mul i 32).symm
      _ ≤ j * 32 := Nat.mul_le_mul_right _ hlt
  have hblock := Memory.writeAll_apply block buffer hdisjoint hrow column
  rwa [row_offset_lt hsize (by decide) hrow] at hblock

/-- Every position of the encoded block holds the symbol of its row. -/
theorem encodeFrame_out (fec : Fec) (buffers : EncodeBuffers) (dataIn : Nat → UInt8)
    {row : Nat} (hrow : row < depth) (column : Fin 255) :
    (encodeFrame fec depth buffers dataIn).out (column * depth + row) =
      rowCodeword fec depth dataIn row column := by
  have hdepth : 0 < depth := Nat.zero_lt_of_lt hrow
  simp only [encodeFrame, dataLen_eq hsize hdepth, parityLen_eq hsize hdepth]
  refine Fin.addCases (m := 223) (n := 32) ?_ ?_ column
  · intro data
    have hinside : (data : Nat) * depth + row < 223 * depth := by
      rw [Nat.mul_comm 223]
      exact row_index_lt data.isLt hrow
    rw [Fin.val_castAdd, Memory.copy_outside _ _ (Or.inl hinside), rowCodeword,
      BlockCode.codeword, Fin.append_left]
    have hcopied := Memory.copy_inside 0 dataIn buffers.out hinside
    rwa [Nat.zero_add] at hcopied
  · intro parity
    have hinside : (parity : Nat) * depth + row < 32 * depth := by
      rw [Nat.mul_comm 32]
      exact row_index_lt parity.isLt hrow
    have haddress : ((Fin.natAdd 223 parity : Fin 255) : Nat) * depth + row =
        223 * depth + (parity * depth + row) := by
      rw [Fin.val_natAdd, Nat.add_mul, Nat.add_assoc]
    rw [haddress, Memory.copy_inside _ _ _ hinside,
      scatter_row hsize (by decide) _ _ hrow parity.isLt, parity_row hsize _ _ hrow,
      read_gathered hsize _ _ hrow, rowCodeword, BlockCode.codeword, Fin.append_right]

end Encoder

section Decoder

variable {fec : Fec} {depth : Nat} (hsize : 255 * depth * depth < size32)

include hsize

/-- One iteration of the decoding loop on a correctable block. -/
theorem decodeLoop_succ {buffers decoded : DecodeBuffers} {count : Nat} (hcount : count < depth)
    (hloop : decodeLoop fec .berlekamp count buffers = .ok decoded) {word : Fin 255 → UInt8}
    (hvalid : 0 ≤ (fec.decodeRsCcsds (Memory.read decoded.input (count * 255))).1)
    (hword : (fec.decodeRsCcsds (Memory.read decoded.input (count * 255))).2 = word) :
    decodeLoop fec .berlekamp (count + 1) buffers = .ok { decoded with
      input := Memory.write (count * 255) word decoded.input
      data := Memory.copy (count * 223) 223
        (fun k => Memory.write (count * 255) word decoded.input (count * 255 + k))
        decoded.data } := by
  have hinputOffset : count * 255 % size32 = count * 255 := row_offset_lt hsize (by decide) hcount
  have hdataOffset : count * 223 % size32 = count * 223 := row_offset_lt hsize (by decide) hcount
  simp only [decodeLoop, hloop, decodeBlock, hinputOffset, hdataOffset, hword,
    if_neg (Int.not_lt.mpr hvalid)]

/-- The decoding loop replaces every correctable block by its codeword and
collects the data symbols. -/
theorem decodeLoop_ok {buffers : DecodeBuffers} {word : Nat → Fin 255 → UInt8} {count : Nat}
    (hcount : count ≤ depth)
    (hblocks : ∀ row < count,
      0 ≤ (fec.decodeRsCcsds (Memory.read buffers.input (row * 255))).1 ∧
        (fec.decodeRsCcsds (Memory.read buffers.input (row * 255))).2 = word row) :
    ∃ decoded, decodeLoop fec .berlekamp count buffers = .ok decoded ∧
      (∀ address, count * 255 ≤ address → decoded.input address = buffers.input address) ∧
      ∀ row < count, ∀ column : Fin 223,
        decoded.data (row * 223 + column) = word row (Fin.castAdd 32 column) := by
  induction count with
  | zero =>
      refine ⟨buffers, rfl, fun _ _ => rfl, ?_⟩
      intro row hrow
      exact absurd hrow (Nat.not_lt_zero _)
  | succ count ih =>
      obtain ⟨decoded, hloop, hinput, hdata⟩ := ih (Nat.le_of_succ_le hcount) fun row hrow =>
        hblocks row (Nat.lt_succ_of_lt hrow)
      have hread : (Memory.read decoded.input (count * 255) : Fin 255 → UInt8) =
          Memory.read buffers.input (count * 255) := by
        funext column
        exact hinput _ (Nat.le_add_right _ _)
      obtain ⟨hvalid, hword⟩ := hblocks count (Nat.lt_succ_self count)
      rw [← hread] at hvalid hword
      refine ⟨_, decodeLoop_succ hsize hcount hloop hvalid hword, ?_, ?_⟩
      · intro address haddress
        rw [Nat.succ_mul] at haddress
        change Memory.write (count * 255) (word count) decoded.input address = _
        rw [Memory.write_outside _ _ (Or.inr haddress)]
        exact hinput _ (Nat.le_of_add_right_le haddress)
      · intro row hrow column
        dsimp only
        rcases Nat.lt_succ_iff_lt_or_eq.mp hrow with hbefore | rfl
        · have hnext : (row + 1) * 223 ≤ count * 223 := Nat.mul_le_mul_right _ hbefore
          rw [Nat.succ_mul] at hnext
          have hbelow : row * 223 + column < count * 223 :=
            Nat.lt_of_lt_of_le (Nat.add_lt_add_left column.isLt _) hnext
          rw [Memory.copy_outside _ _ (Or.inl hbelow)]
          exact hdata row hbefore column
        · rw [Memory.copy_inside _ _ _ column.isLt]
          exact Memory.write_inside _ _ _ (Fin.castAdd 32 column)

omit hsize in
theorem decodeLoop_of_error {representation : Representation} {buffers last : DecodeBuffers}
    {count : Nat} (herror : decodeLoop fec representation count buffers = .error last)
    (more : Nat) : decodeLoop fec representation (count + more) buffers = .error last := by
  induction more with
  | zero => exact herror
  | succ more ih => rw [Nat.add_succ, decodeLoop, ih]

/-- The decoding loop stops at the first block that is not correctable. -/
theorem decodeLoop_error {buffers : DecodeBuffers}
    (hinvalid : ∃ row < depth,
      (fec.decodeRsCcsds (Memory.read buffers.input (row * 255))).1 < 0) :
    ∃ last, decodeLoop fec .berlekamp depth buffers = .error last := by
  classical
  obtain ⟨hrow, hfirst⟩ := Nat.find_spec hinvalid
  generalize hbad : Nat.find hinvalid = bad at hrow hfirst
  obtain ⟨decoded, hloop, hinput, -⟩ := decodeLoop_ok hsize hrow.le fun row hbefore =>
    ⟨Int.not_lt.mp fun hneg => Nat.find_min hinvalid (hbad.symm ▸ hbefore)
      ⟨hbefore.trans hrow, hneg⟩, rfl⟩
  have hread : (Memory.read decoded.input (bad * 255) : Fin 255 → UInt8) =
      Memory.read buffers.input (bad * 255) := by
    funext column
    exact hinput _ (Nat.le_add_right _ _)
  have hoffset : bad * 255 % size32 = bad * 255 := row_offset_lt hsize (by decide) hrow
  obtain ⟨last, hstop⟩ : ∃ last,
      decodeLoop fec .berlekamp (bad + 1) buffers = .error last := by
    simp only [decodeLoop, hloop, decodeBlock, hoffset, hread, if_pos hfirst]
    exact ⟨_, rfl⟩
  obtain ⟨more, hmore⟩ := Nat.exists_eq_add_of_le (Nat.succ_le_of_lt hrow)
  exact ⟨last, hmore ▸ decodeLoop_of_error hstop more⟩

/-- The rows of a block, as the decoder gathers them. -/
theorem read_input (dataIn buffer : Nat → UInt8) {row : Nat} (hrow : row < depth) :
    (Memory.read (Memory.scatter id (fun i => dataIn (interlIndx i depth (255 * depth)))
      (255 * depth) buffer) (row * 255) : Fin 255 → UInt8) =
        fun column : Fin 255 => dataIn (column * depth + row) := by
  funext column
  exact gather_row hsize (by decide) _ _ hrow column.isLt

/-- A block with a row that is not correctable is dropped. -/
theorem decodeFrame_error {buffers : DecodeBuffers} {dataIn : Nat → UInt8} (hdepth : 0 < depth)
    (hinvalid : ∃ row < depth,
      (fec.decodeRsCcsds fun column => dataIn (column * depth + row)).1 < 0) :
    ∃ last, decodeFrame fec .berlekamp depth buffers dataIn = .error last := by
  rw [decodeFrame, blockLen_eq hsize hdepth]
  obtain ⟨row, hrow, hneg⟩ := hinvalid
  rw [← read_input hsize dataIn buffers.input hrow] at hneg
  obtain ⟨last, hloop⟩ : ∃ last, decodeLoop fec .berlekamp depth { buffers with
      input := Memory.scatter id (fun i => dataIn (interlIndx i depth (255 * depth)))
        (255 * depth) buffers.input } = .error last := decodeLoop_error hsize ⟨row, hrow, hneg⟩
  simp only [hloop]
  exact ⟨last, rfl⟩

/-- A block in which every row is correctable is decoded to the rows' data. -/
theorem decodeFrame_ok {buffers : DecodeBuffers} {dataIn : Nat → UInt8}
    {word : Nat → Fin 255 → UInt8} (hdepth : 0 < depth)
    (hrows : ∀ row < depth,
      0 ≤ (fec.decodeRsCcsds fun column => dataIn (column * depth + row)).1 ∧
        (fec.decodeRsCcsds fun column => dataIn (column * depth + row)).2 = word row) :
    ∃ decoded, decodeFrame fec .berlekamp depth buffers dataIn = .ok decoded ∧
      ∀ row < depth, ∀ column : Fin 223,
        decoded.out (column * depth + row) = word row (Fin.castAdd 32 column) := by
  rw [decodeFrame, blockLen_eq hsize hdepth, dataLen_eq hsize hdepth]
  generalize hinput : Memory.scatter id _ (255 * depth) buffers.input = input
  have hblocks : ∀ row < depth,
      0 ≤ (fec.decodeRsCcsds (Memory.read
        ({ buffers with input := input } : DecodeBuffers).input (row * 255))).1 ∧
      (fec.decodeRsCcsds (Memory.read
        ({ buffers with input := input } : DecodeBuffers).input (row * 255))).2 = word row := by
    intro row hrow
    dsimp only
    rw [← hinput, read_input hsize dataIn buffers.input hrow]
    exact hrows row hrow
  obtain ⟨decoded, hloop, _, hdata⟩ := decodeLoop_ok hsize le_rfl hblocks
  simp only [hloop]
  refine ⟨_, rfl, ?_⟩
  intro row hrow column
  dsimp only
  rw [scatter_row hsize (by decide) _ _ hrow column.isLt]
  exact hdata row hrow column

end Decoder

/-- Few wrong bytes in a residue class are few wrong symbols of its row. -/
theorem hammingDist_row_le {depth : Nat} {sent received : List UInt8}
    (hlength : sent.length = 255 * depth) {row : Nat} (hrow : row < depth)
    {word : Fin 255 → UInt8}
    (hword : ∀ column : Fin 255, sent.getD (column * depth + row) 0 = word column) :
    hammingDist word (fun column => received.getD (column * depth + row) 0) ≤
      (wrongInClass depth sent received row).card := by
  unfold hammingDist
  apply Finset.card_le_card_of_injOn fun column : Fin 255 => (column : Nat) * depth + row
  · intro column hcolumn
    have hdiffers := (Finset.mem_filter.mp hcolumn).2
    rw [← hword] at hdiffers
    apply Finset.mem_filter.mpr
    refine ⟨?_, ?_, hdiffers⟩
    · rw [Finset.mem_range, hlength, Nat.mul_comm 255]
      exact row_index_lt column.isLt hrow
    · rw [Nat.mul_add_mod_self_right, Nat.mod_eq_of_lt hrow]
  · intro first _ second _ heq
    have hproducts : (first : Nat) * depth = second * depth := Nat.add_right_cancel heq
    exact Fin.ext (Nat.eq_of_mul_eq_mul_right (Nat.zero_lt_of_lt hrow) hproducts)

/-- A burst of wrong bytes hits each residue class at most sixteen times. -/
theorem wrongInClass_card_le_of_burst {depth : Nat} {sent received : List UInt8} {start : Nat}
    (hburst : ∀ p < sent.length, sent.getD p 0 ≠ received.getD p 0 →
      start ≤ p ∧ p < start + 16 * depth) {row : Nat} (hrow : row < depth) :
    (wrongInClass depth sent received row).card ≤ 16 := by
  have hdepth : 0 < depth := Nat.zero_lt_of_lt hrow
  -- the quotients of the wrong positions by the depth lie in an interval
  have hquotients : (wrongInClass depth sent received row).card ≤
      (Finset.Ico ((start + depth - 1 - row) / depth)
        ((start + depth - 1 - row) / depth + 16)).card := by
    apply Finset.card_le_card_of_injOn fun p => p / depth
    · intro p hp
      obtain ⟨hrange, hclass, hdiffers⟩ := Finset.mem_filter.mp hp
      obtain ⟨hge, hlt⟩ := hburst p (Finset.mem_range.mp hrange) hdiffers
      have hp : p / depth * depth + row = p := by
        rw [← hclass]
        exact Nat.div_add_mod' p depth
      apply Finset.mem_Ico.mpr
      dsimp only
      constructor
      · rw [Nat.div_le_iff_le_mul_add_pred hdepth, Nat.mul_comm depth]
        omega
      · rw [← Nat.add_mul_div_right _ _ hdepth, Nat.lt_iff_add_one_le,
          Nat.le_div_iff_mul_le hdepth, Nat.succ_mul]
        omega
    · intro first hfirst second hsecond heq
      change first / depth = second / depth at heq
      have hfirstClass := (Finset.mem_filter.mp hfirst).2.1
      have hsecondClass := (Finset.mem_filter.mp hsecond).2.1
      rw [← Nat.div_add_mod' first depth, ← Nat.div_add_mod' second depth, hfirstClass,
        hsecondClass, heq]
  rwa [Nat.card_Ico, Nat.add_sub_cancel_left] at hquotients

theorem makeBlob_length (buffer : Nat → UInt8) (length : Nat) :
    (makeBlob buffer length).length = length := by
  simp [makeBlob]

theorem makeBlob_getD (buffer : Nat → UInt8) {length p : Nat} (hp : p < length) :
    (makeBlob buffer length).getD p 0 = buffer p := by
  simp [makeBlob, hp]

/-- A buffer that agrees with a blob everywhere is published as that blob. -/
theorem makeBlob_eq {buffer : Nat → UInt8} {blob : List UInt8}
    (hagree : ∀ p < blob.length, buffer p = blob.getD p 0) :
    makeBlob buffer blob.length = blob := by
  apply List.ext_getElem (makeBlob_length _ _)
  intro p _ hp
  simpa [makeBlob, List.getElem?_eq_getElem hp] using hagree p hp

/-- Rows that begin with the data of a frame are published as the frame. -/
theorem makeBlob_eq_of_rows {fec : Fec} {depth : Nat} {frame : List UInt8}
    (hframe : frame.length = 223 * depth) {out : Nat → UInt8}
    (hout : ∀ row < depth, ∀ column : Fin 223, out (column * depth + row) =
      rowCodeword fec depth (fun i => frame.getD i 0) row (Fin.castAdd 32 column)) :
    makeBlob out frame.length = frame := by
  apply makeBlob_eq
  intro p hp
  rw [hframe] at hp
  obtain ⟨row, column, hrow, hcolumn, rfl⟩ := exists_row hp
  rw [hout row hrow ⟨column, hcolumn⟩, rowCodeword, BlockCode.codeword, Fin.append_left]
  rfl

variable {Metadata : Type}

/-- A block with at most sixteen wrong bytes in every residue class, or with a
burst of at most sixteen times the depth, is decoded to the original frame. -/
theorem decode_encode_eq_frame {fec : Fec} (hfec : fec.CorrectsSixteen) {depth : Nat}
    (hdepth : 0 < depth) (hsize : 255 * depth * depth < size32)
    (encodeBuffers : EncodeBuffers) (decodeBuffers : DecodeBuffers)
    (header : Header Metadata) {frame : List UInt8} (hframe : frame.length = 223 * depth) :
    ∃ blob encodeBuffers',
      encodeProcessFrame fec depth encodeBuffers (.frame header frame) =
        ([.frame header blob], encodeBuffers') ∧
      ∀ (receivedHeader : Header Metadata) (received : List UInt8),
        receivedHeader.frameNumber ≠ .wrongType → received.length = blob.length →
        (∀ row < depth, (wrongInClass depth blob received row).card ≤ 16) ∨
          (∃ start, ∀ p < blob.length, blob.getD p 0 ≠ received.getD p 0 →
            start ≤ p ∧ p < start + 16 * depth) →
        ∃ decodeBuffers',
          decodeProcessFrame fec .berlekamp depth decodeBuffers (.frame receivedHeader received) =
            .ok ([.frame receivedHeader frame], decodeBuffers') := by
  have hblockSize : 255 * depth < size32 :=
    Nat.lt_of_le_of_lt (Nat.le_mul_of_pos_right _ hdepth) hsize
  have hlong : ¬ frame.length % size32 < dataLen depth := by
    rw [hframe, dataLen_eq hsize hdepth, Nat.mod_eq_of_lt (by omega)]
    exact Nat.lt_irrefl _
  refine ⟨_, _, by rw [encodeProcessFrame, if_neg hlong], ?_⟩
  rw [blockLen_eq hsize hdepth]
  generalize hbuffer : (encodeFrame fec depth encodeBuffers fun i => frame.getD i 0).out = sent
  intro receivedHeader received hnumber hlength hwrong
  rw [makeBlob_length] at hlength
  -- both kinds of errors leave few wrong bytes in every residue class
  have hfew : ∀ row < depth,
      (wrongInClass depth (makeBlob sent (255 * depth)) received row).card ≤ 16 := by
    rcases hwrong with hclasses | ⟨start, hburst⟩
    · exact hclasses
    · intro row hrow
      exact wrongInClass_card_le_of_burst hburst hrow
  have hrows : ∀ row < depth, 0 ≤ (fec.decodeRsCcsds fun column =>
        (fun i => received.getD i 0) (column * depth + row)).1 ∧
      (fec.decodeRsCcsds fun column =>
        (fun i => received.getD i 0) (column * depth + row)).2 =
          rowCodeword fec depth (fun i => frame.getD i 0) row := by
    intro row hrow
    apply hfec.corrects
    apply Nat.le_trans _ (hfew row hrow)
    apply hammingDist_row_le (makeBlob_length _ _) hrow
    intro column
    rw [makeBlob_getD _ (by rw [Nat.mul_comm 255]; exact row_index_lt column.isLt hrow),
      ← hbuffer]
    exact encodeFrame_out hsize fec encodeBuffers _ hrow column
  obtain ⟨decoded, hdecode, hout⟩ : ∃ decoded, decodeFrame fec .berlekamp depth decodeBuffers
        (fun i => received.getD i 0) = .ok decoded ∧ ∀ row < depth, ∀ column : Fin 223,
      decoded.out (column * depth + row) =
        rowCodeword fec depth (fun i => frame.getD i 0) row (Fin.castAdd 32 column) :=
    decodeFrame_ok hsize hdepth hrows
  have hreceived : ¬ received.length % size32 < blockLen depth := by
    rw [hlength, blockLen_eq hsize hdepth, Nat.mod_eq_of_lt hblockSize]
    exact Nat.lt_irrefl _
  refine ⟨decoded, ?_⟩
  rw [decodeProcessFrame, if_neg hnumber, if_neg hreceived, hdecode, dataLen_eq hsize hdepth,
    ← hframe]
  simp only
  rw [makeBlob_eq_of_rows hframe hout]

open Classical in
/-- Bytes as the elements of the field with 256 elements, zero as zero. -/
noncomputable def byteSymbol : UInt8 ≃ GaloisField 2 8 :=
  let labels : UInt8 ≃ GaloisField 2 8 :=
    (⟨UInt8.toFin, UInt8.ofFin, UInt8.ofFin_toFin, UInt8.toFin_ofFin⟩ : UInt8 ≃ Fin 256).trans
      (Finite.equivFinOfCardEq (GaloisField.card 2 8 (by decide))).symm
  labels.trans (Equiv.swap (labels 0) 0)

/-- The points at which the polynomials are evaluated. -/
noncomputable def evaluationPoint (i : Fin (223 + 32)) : GaloisField 2 8 := byteSymbol (.ofNat i)

theorem evaluationPoint_injective : Function.Injective evaluationPoint := by
  intro first second heq
  have hbytes := congrArg UInt8.toNat (byteSymbol.injective heq)
  rw [UInt8.toNat_ofNat', UInt8.toNat_ofNat'] at hbytes
  have hfirst := first.isLt
  have hsecond := second.isLt
  exact Fin.ext (by omega)

/-- The parity bytes of a (255,223) evaluation code. -/
noncomputable def evaluationBytes : (Fin 223 → UInt8) → Fin 32 → UInt8 :=
  BlockCode.relabel byteSymbol (BlockCode.evaluationParity evaluationPoint)

/-- The code with a nearest-codeword decoder in place of the codec functions. -/
noncomputable def evaluationFec : Fec where
  encodeRsCcsds := evaluationBytes
  decodeRsCcsds word :=
    match BlockCode.nearest evaluationBytes 16 word with
    | none => (-1, word)
    | some corrected => (hammingDist corrected word, corrected)
  decodeRs8 word := (-1, word)

open Classical in
theorem evaluationFec_correctsSixteen : evaluationFec.CorrectsSixteen where
  corrects := by
    intro data word hword
    have hseparated : BlockCode.Separated evaluationBytes (2 * 16 + 1) :=
      (BlockCode.evaluationParity_separated evaluationPoint_injective).relabel byteSymbol
    have hnearest := BlockCode.nearest_corrects evaluationBytes 16 hseparated data word hword
    have hdecode : evaluationFec.decodeRsCcsds word =
        (↑(hammingDist (BlockCode.codeword evaluationBytes data) word),
          BlockCode.codeword evaluationBytes data) := by
      simp only [evaluationFec, hnearest]
    rw [hdecode]
    refine ⟨Int.natCast_nonneg _, ?_⟩
    simp only [evaluationFec]

/-- A block with a burst of 32 wrong bytes across the border of data and parity. -/
def burst (blob : List UInt8) : List UInt8 :=
  blob.mapIdx fun p byte => if 430 ≤ p ∧ p < 462 then byte + 1 else byte

theorem burst_spec (blob : List UInt8) (p : Nat)
    (hdiffers : blob.getD p 0 ≠ (burst blob).getD p 0) :
    430 ≤ p ∧ p < 430 + 16 * 2 := by
  by_contra houtside
  apply hdiffers
  simp only [burst, List.getD_eq_getElem?_getD, List.getElem?_mapIdx]
  cases blob[p]? with
  | none => rfl
  | some byte => simp [houtside]

/-- Two interleaved zero codewords survive the burst. -/
theorem decode_burst_eq_zeros :
    ∃ blob encodeBuffers',
      encodeProcessFrame evaluationFec 2 ⟨0, 0, 0, 0⟩
          (.frame (⟨.missing, ()⟩ : Header Unit) (List.replicate 446 0)) =
        ([.frame ⟨.missing, ()⟩ blob], encodeBuffers') ∧
      ∃ decodeBuffers',
        decodeProcessFrame evaluationFec .berlekamp 2 ⟨0, 0, 0⟩
            (.frame (⟨.missing, ()⟩ : Header Unit) (burst blob)) =
          .ok ([.frame ⟨.missing, ()⟩ (List.replicate 446 0)], decodeBuffers') := by
  obtain ⟨blob, encodeBuffers', hencode, hdecode⟩ := decode_encode_eq_frame
    evaluationFec_correctsSixteen (Nat.succ_pos 1) (by decide) ⟨0, 0, 0, 0⟩ ⟨0, 0, 0⟩
    (⟨.missing, ()⟩ : Header Unit) (List.length_replicate (n := 446) (a := 0))
  refine ⟨blob, encodeBuffers', hencode, hdecode _ _ (by decide) (by simp [burst]) (Or.inr ?_)⟩
  exact ⟨430, fun p _ hdiffers => burst_spec blob p hdiffers⟩

end GrCcsds.ReedSolomon
