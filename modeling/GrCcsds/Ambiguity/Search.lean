import GrCcsds.Ambiguity.Lock

/-! # The search for an ASM

The correlations that the block computes from its input are correlations at
absolute positions of the converted stream, as long as the input starts with a
symbol. What a search finds is one of them.
-/

namespace GrCcsds.Ambiguity

open Utils Foundation

variable {R : Type} [Arithmetic R] {cfg : Config R} {stream : Nat → R}

/-- The correlation only depends on the bits under the ASM. -/
theorem checkForAsm_congr {first second : Nat → R} {offset position : Nat}
    (hbits : ∀ i < cfg.asmLenBits, first (i + offset) = second (i + position)) :
    checkForAsm cfg first offset = checkForAsm cfg second position := by
  unfold checkForAsm
  dsimp only
  have hcorrelation : (List.range cfg.asmLenBits).foldl
      (fun sum i => sum + cfg.asm i * first (i + offset)) 0 =
        (List.range cfg.asmLenBits).foldl
          (fun sum i => sum + cfg.asm i * second (i + position)) 0 := by
    apply List.foldl_ext
    intro sum i hi
    rw [hbits i (List.mem_range.mp hi)]
  have hmagnitude : (List.range cfg.asmLenBits).foldl
      (fun sum i => sum + magnitude (first (i + offset))) 0 =
        (List.range cfg.asmLenBits).foldl
          (fun sum i => sum + magnitude (second (i + position))) 0 := by
    apply List.foldl_ext
    intro sum i hi
    rw [hbits i (List.mem_range.mp hi)]
  rw [hcorrelation, hmagnitude]

/-- The symbols of the input at an aligned position, converted in the block. -/
theorem convertAmbiguity_input {position numBits : Nat} (haligned : cfg.ldM ∣ position)
    (hdvd : cfg.ldM ∣ numBits) (ambiguity : Nat) {p : Nat} (hp : p < numBits) :
    convertAmbiguity cfg.ldM (fun i => stream (position + i)) numBits ambiguity p =
      converted cfg stream ambiguity (position + p) := by
  rw [convertAmbiguity_of_lt _ hdvd ambiguity hp, convertBit_shift cfg.ldM_pos haligned]
  rfl

/-- The search keeps its best match or takes the correlation at an offset. -/
theorem searchOffsets_cases (cfg : Config R) (input : Nat → R) (offsets : List Nat)
    (best : R × Nat) :
    searchOffsets cfg input offsets best = best ∨
      ∃ i ∈ offsets, searchOffsets cfg input offsets best = (checkForAsm cfg input i, i) := by
  induction offsets generalizing best with
  | nil => exact Or.inl rfl
  | cons i rest ih =>
      simp only [searchOffsets]
      split
      · split
        · exact Or.inr ⟨i, List.mem_cons_self, rfl⟩
        · rcases ih (checkForAsm cfg input i, i) with hkept | ⟨j, hj, hfound⟩
          · exact Or.inr ⟨i, List.mem_cons_self, hkept⟩
          · exact Or.inr ⟨j, List.mem_cons_of_mem _ hj, hfound⟩
      · rcases ih best with hkept | ⟨j, hj, hfound⟩
        · exact Or.inl hkept
        · exact Or.inr ⟨j, List.mem_cons_of_mem _ hj, hfound⟩

/-- A match of the search over the ambiguities is a match in one of them. -/
theorem searchStreams_cases (cfg : Config R) (input : Nat → R) (searchLen : Nat)
    (ambiguities : List Nat) (best : Best R) :
    searchStreams cfg input searchLen ambiguities best = best ∨
      ∃ i ∈ ambiguities,
        (searchStreams cfg input searchLen ambiguities best).ambiguity = i ∧
        ((searchStreams cfg input searchLen ambiguities best).correlation,
          (searchStreams cfg input searchLen ambiguities best).offsetBits) =
            searchForAsm cfg (convertAmbiguity cfg.ldM input searchLen i) searchLen := by
  induction ambiguities generalizing best with
  | nil => exact Or.inl rfl
  | cons i rest ih =>
      simp only [searchStreams]
      split
      · split
        · exact Or.inr ⟨i, List.mem_cons_self, rfl, rfl⟩
        · rcases ih ⟨_, i, _⟩ with hkept | ⟨j, hj, hfound⟩
          · rw [hkept]
            exact Or.inr ⟨i, List.mem_cons_self, rfl, rfl⟩
          · exact Or.inr ⟨j, List.mem_cons_of_mem _ hj, hfound⟩
      · rcases ih best with hkept | ⟨j, hj, hfound⟩
        · exact Or.inl hkept
        · exact Or.inr ⟨j, List.mem_cons_of_mem _ hj, hfound⟩

omit [Arithmetic R] in
/-- With enough input, an ASM fits into the whole symbols that are searched. -/
theorem asmLenBits_le_searchLen {available : Nat} (havailable : cfg.searchLenMin ≤ available) :
    cfg.asmLenBits ≤ cfg.lower (min available cfg.searchLenMax) := by
  have hmin : cfg.asmLenBits + cfg.ldM ≤ available :=
    (le_getUpperMul cfg.ldM_pos _).trans havailable
  have hmax : cfg.messageLen + 2 * cfg.asmLenBits - 1 ≤ cfg.searchLenMax :=
    le_getUpperMul cfg.ldM_pos _
  have hframe : 8 ≤ cfg.messageLen := Nat.le_add_right_of_le cfg.le_frameLenBits
  have hsymbol := cfg.ldM_le
  have hasm := cfg.asmLenBits_pos
  have hsum := getLowerMul_add_mod cfg.ldM (min available cfg.searchLenMax)
  have hmod := Nat.mod_lt (min available cfg.searchLenMax) cfg.ldM_pos
  unfold Config.lower
  omega

/-- An ASM that a search has found ends at its position in the stream. -/
theorem searchStreams_asmBefore {base searchLen : Nat} (haligned : cfg.ldM ∣ base)
    (hdvd : cfg.ldM ∣ searchLen) (hlen : cfg.asmLenBits ≤ searchLen) {ambiguities : List Nat}
    {start best : Best R} (hstart : start.correlation = -1)
    (hbest : searchStreams cfg (fun i => stream (base + i)) searchLen ambiguities start = best) :
    best.correlation = -1 ∨
      AsmBefore cfg stream (base + best.offsetBits + cfg.asmLenBits) best.ambiguity
        best.correlation := by
  rcases searchStreams_cases cfg (fun i => stream (base + i)) searchLen ambiguities
    start with hkept | ⟨ambiguity, -, hambiguity, hmatch⟩
  · left
    rw [← hbest, hkept, hstart]
  · rw [hbest] at hambiguity hmatch
    rcases searchOffsets_cases cfg (convertAmbiguity cfg.ldM
      (fun i => stream (base + i)) searchLen ambiguity)
      (List.range (searchLen - cfg.asmLenBits + 1)) (-1, 0) with
      hnothing | ⟨offset, hoffset, hfound⟩
    · -- nothing above -1 in this ambiguity
      left
      exact congrArg Prod.fst (hmatch.trans hnothing)
    · right
      obtain ⟨hcorrelation, hposition⟩ := Prod.mk.inj (hmatch.trans hfound)
      have hinside := List.mem_range.mp hoffset
      refine ⟨Nat.le_add_left _ _, ?_⟩
      rw [Nat.add_sub_cancel, hcorrelation, hposition, hambiguity]
      symm
      apply checkForAsm_congr
      intro i hi
      rw [convertAmbiguity_input haligned hdvd ambiguity (by omega)]
      congr 1
      omega

end GrCcsds.Ambiguity
