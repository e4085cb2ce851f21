import GrCcsds.Ambiguity.Resolver
import GrCcsds.Arithmetic
import GrCcsds.Foundation.GrayCode
import Mathlib.Data.Rat.Floor

/-! # Undoing a rotation of the constellation

The mapping of a constellation and its reverse are inverse to each other. The
conversion of soft bits moves the index of every symbol back by the ambiguity,
and changes signs only.
-/

namespace GrCcsds.Ambiguity

open Utils Foundation

section Maps

theorem togray_eq_xorShift (binary : Nat) : togray binary = GrayCode.xorShift 1 binary :=
  Nat.xor_comm _ _

theorem tobinary_eq_decode (num : Nat) : tobinary num = GrayCode.decode 5 num := rfl

theorem togray_lt {n binary : Nat} (hlt : binary < 2 ^ n) : togray binary < 2 ^ n :=
  togray_eq_xorShift binary ▸ GrayCode.xorShift_lt hlt

theorem tobinary_lt {n num : Nat} (hlt : num < 2 ^ n) : tobinary num < 2 ^ n :=
  tobinary_eq_decode num ▸ GrayCode.decode_lt hlt

theorem tobinary_togray {binary : Nat} (hlt : binary < 2 ^ 32) :
    tobinary (togray binary) = binary := by
  rw [togray_eq_xorShift, tobinary_eq_decode, GrayCode.decode_encode hlt]

theorem togray_tobinary {num : Nat} (hlt : num < 2 ^ 32) : togray (tobinary num) = num := by
  rw [togray_eq_xorShift, tobinary_eq_decode, GrayCode.encode_decode hlt]

theorem qpskMap_lt : ∀ i < 4, qpskMap i < 4 := by decide

theorem qpskRevMap_lt : ∀ i < 4, qpskRevMap i < 4 := by decide

theorem qpskRevMap_qpskMap : ∀ i < 4, qpskRevMap (qpskMap i) = i := by decide

theorem qpskMap_qpskRevMap : ∀ i < 4, qpskMap (qpskRevMap i) = i := by decide

variable {ldM i : Nat}

theorem mpskMap_lt (hi : i < 2 ^ ldM) : mpskMap (2 ^ ldM) i < 2 ^ ldM := by
  unfold mpskMap
  split
  next hqpsk => exact hqpsk ▸ qpskMap_lt i (hqpsk ▸ hi)
  next => exact togray_lt hi

theorem mpskRevMap_lt (hi : i < 2 ^ ldM) : mpskRevMap (2 ^ ldM) i < 2 ^ ldM := by
  unfold mpskRevMap
  split
  next hqpsk => exact hqpsk ▸ qpskRevMap_lt i (hqpsk ▸ hi)
  next => exact tobinary_lt hi

theorem lt_two_pow_word (hle : ldM ≤ 8) (hi : i < 2 ^ ldM) : i < 2 ^ 32 :=
  Nat.lt_of_lt_of_le hi (Nat.pow_le_pow_right Nat.two_pos (Nat.le_trans hle (by decide)))

theorem mpskRevMap_mpskMap (hle : ldM ≤ 8) (hi : i < 2 ^ ldM) :
    mpskRevMap (2 ^ ldM) (mpskMap (2 ^ ldM) i) = i := by
  unfold mpskRevMap mpskMap
  split
  next hqpsk => exact qpskRevMap_qpskMap i (hqpsk ▸ hi)
  next => exact tobinary_togray (lt_two_pow_word hle hi)

theorem mpskMap_mpskRevMap (hle : ldM ≤ 8) (hi : i < 2 ^ ldM) :
    mpskMap (2 ^ ldM) (mpskRevMap (2 ^ ldM) i) = i := by
  unfold mpskRevMap mpskMap
  split
  next hqpsk => exact qpskMap_qpskRevMap i (hqpsk ▸ hi)
  next => exact togray_tobinary (lt_two_pow_word hle hi)

end Maps

theorem extractBitLeft_eq_testBit (byte : Nat) {bitPos : Nat} (hpos : bitPos ≤ 7) :
    extractBitLeft byte bitPos = byte.testBit (7 - bitPos) := by
  have hmask : ∀ n ≤ 7, 0x80 >>> n = 2 ^ (7 - n) := by decide
  rw [extractBitLeft, hmask bitPos hpos, Nat.and_two_pow]
  cases byte.testBit (7 - bitPos) <;> simp

section Signs

variable {R : Type} [Arithmetic R]

/-- A soft bit that is not zero. -/
def HasSign (x : R) : Prop := 0 < x ∨ x < 0

instance (x : R) : Decidable (HasSign x) := inferInstanceAs (Decidable (0 < x ∨ x < 0))

variable [SignLaws R] {x y : R}

theorem HasSign.neg_iff (hx : HasSign x) : 0 < -x ↔ ¬ 0 < x := by
  rw [SignLaws.neg_pos]
  constructor
  · intro hneg hpos
    exact SignLaws.asymm x hpos hneg
  · intro hnot
    exact hx.resolve_left hnot

theorem neg_lt_zero_iff (x : R) : -x < 0 ↔ 0 < x := by
  rw [← SignLaws.neg_pos, SignLaws.neg_neg]

theorem HasSign.magnitude_neg (hx : HasSign x) : magnitude (-x) = magnitude x := by
  unfold magnitude
  rcases hx with hpos | hneg
  · rw [if_pos ((neg_lt_zero_iff x).mpr hpos), if_neg (SignLaws.asymm x hpos), SignLaws.neg_neg]
  · have hpos : 0 < -x := (SignLaws.neg_pos x).mpr hneg
    rw [if_neg (SignLaws.asymm _ hpos), if_pos hneg]

/-- A number with the magnitude of a soft bit is one. -/
theorem HasSign.of_magnitude (hx : HasSign x) (hmagnitude : magnitude y = magnitude x) :
    HasSign y := by
  by_cases hneg : y < 0
  · exact Or.inr hneg
  · left
    rw [magnitude, if_neg hneg] at hmagnitude
    rw [hmagnitude, magnitude]
    split
    next hx => exact (SignLaws.neg_pos x).mpr hx
    next hnot => exact hx.resolve_right hnot

/-- Sign and magnitude determine a soft bit. -/
theorem HasSign.eq_of_magnitude (hx : HasSign x) (hy : HasSign y)
    (hmagnitude : magnitude x = magnitude y) (hsign : 0 < x ↔ 0 < y) : x = y := by
  unfold magnitude at hmagnitude
  by_cases hpos : 0 < x
  · rwa [if_neg (SignLaws.asymm x hpos), if_neg (SignLaws.asymm y (hsign.mp hpos))] at hmagnitude
  · rw [if_pos (hx.resolve_left hpos), if_pos (hy.resolve_left (hpos ∘ hsign.mpr))] at hmagnitude
    rw [← SignLaws.neg_neg x, hmagnitude, SignLaws.neg_neg]

/-- Flipping the sign of a soft bit where its decision differs from a bit. -/
theorem HasSign.pos_flip (hx : HasSign x) (bit : Bool) :
    (0 < if (decide (0 < x) ^^ bit) = true then -x else x) ↔ bit = true := by
  have hneg := hx.neg_iff
  by_cases hpos : 0 < x <;> cases bit <;> simp [hpos, hneg]

end Signs

section Symbols

variable {R : Type} [Arithmetic R] {ldM : Nat}

theorem convertToChar_succ (n : Nat) (input : Nat → R) :
    convertToChar (n + 1) input =
      (convertToChar n input <<< 1) % 256 ||| (if input n > 0 then 1 else 0) := by
  rw [convertToChar, List.range_succ, List.foldl_append]
  rfl

/-- The packed hard decisions are the bits of a number, the first one on top. -/
theorem convertToChar_bits {n : Nat} (hn : n ≤ 8) (input : Nat → R) :
    convertToChar n input < 2 ^ n ∧
      ∀ j < n, (convertToChar n input).testBit (n - 1 - j) = decide (0 < input j) := by
  induction n with
  | zero => exact ⟨Nat.one_pos, nofun⟩
  | succ n ih =>
      obtain ⟨hlt, hbits⟩ := ih (Nat.le_of_succ_le hn)
      -- at most eight bits, so that the shift loses none of them
      have hshift : convertToChar n input <<< 1 < 2 ^ (n + 1) := by
        rw [Nat.shiftLeft_eq, Nat.pow_succ]
        omega
      have hbyte : 2 ^ (n + 1) ≤ 256 := Nat.pow_le_pow_right (j := 8) Nat.two_pos hn
      rw [convertToChar_succ, Nat.mod_eq_of_lt (Nat.lt_of_lt_of_le hshift hbyte)]
      refine ⟨Nat.or_lt_two_pow hshift ?_, ?_⟩
      · have hbit : (if input n > 0 then 1 else 0) < 2 ^ 1 := by split <;> decide
        exact Nat.lt_of_lt_of_le hbit (Nat.pow_le_pow_right Nat.two_pos (Nat.succ_pos n))
      · intro j hj
        rw [Nat.testBit_or, Nat.testBit_shiftLeft]
        by_cases hlast : j = n
        · rw [hlast]
          by_cases hpos : 0 < input n <;> simp [hpos]
        · have hbefore := hbits j (by omega)
          have hindex : n + 1 - 1 - j = n - 1 - j + 1 := by omega
          rw [hindex, Nat.add_sub_cancel, hbefore]
          split <;> simp [Nat.testBit_succ]

theorem convertToChar_lt (hle : ldM ≤ 8) (input : Nat → R) : convertToChar ldM input < 2 ^ ldM :=
  (convertToChar_bits hle input).1

theorem testBit_convertToChar (hle : ldM ≤ 8) (input : Nat → R) {j : Nat} (hj : j < ldM) :
    (convertToChar ldM input).testBit (ldM - 1 - j) = decide (0 < input j) :=
  (convertToChar_bits hle input).2 j hj

/-- The packed hard decisions are the number that has them as its bits. -/
theorem convertToChar_eq (hle : ldM ≤ 8) {word : Nat} (hword : word < 2 ^ ldM) {input : Nat → R}
    (hbits : ∀ j < ldM, 0 < input j ↔ word.testBit (ldM - 1 - j) = true) :
    convertToChar ldM input = word := by
  apply Nat.eq_of_testBit_eq
  intro i
  by_cases hi : i < ldM
  · obtain ⟨j, hj, rfl⟩ : ∃ j < ldM, i = ldM - 1 - j := ⟨ldM - 1 - i, by omega, by omega⟩
    rw [testBit_convertToChar hle _ hj]
    exact Bool.eq_iff_iff.mpr (decide_eq_true_iff.trans (hbits j hj))
  · have hzero : ∀ word < 2 ^ ldM, word.testBit i = false := by
      intro word hword
      exact Nat.testBit_lt_two_pow
        (Nat.lt_of_lt_of_le hword (Nat.pow_le_pow_right Nat.two_pos (Nat.le_of_not_lt hi)))
    rw [hzero _ (convertToChar_lt hle _), hzero _ hword]

theorem convertToChar_congr {first second : Nat → R} (heq : ∀ j < ldM, first j = second j) :
    convertToChar ldM first = convertToChar ldM second := by
  unfold convertToChar
  apply List.foldl_ext
  intro out j hj
  rw [heq j (List.mem_range.mp hj)]

/-- The hard decisions of a symbol of a stream. -/
def symbolBits (ldM : Nat) (input : Nat → R) (symbol : Nat) : Nat :=
  convertToChar ldM fun j => input (ldM * symbol + j)

/-- The index of a symbol of a stream in the constellation. -/
def symbolIndex (ldM : Nat) (input : Nat → R) (symbol : Nat) : Nat :=
  mpskRevMap (2 ^ ldM) (symbolBits ldM input symbol)

/-- The index without the ambiguity. -/
def rotateBack (order index ambiguity : Nat) : Nat := (order + index - ambiguity) % order

theorem symbolBits_lt (hle : ldM ≤ 8) (input : Nat → R) (symbol : Nat) :
    symbolBits ldM input symbol < 2 ^ ldM := convertToChar_lt hle _

theorem symbolIndex_lt (hle : ldM ≤ 8) (input : Nat → R) (symbol : Nat) :
    symbolIndex ldM input symbol < 2 ^ ldM := mpskRevMap_lt (symbolBits_lt hle input symbol)

theorem rotateBack_lt {order : Nat} (hpos : 0 < order) (index ambiguity : Nat) :
    rotateBack order index ambiguity < order := Nat.mod_lt _ hpos

theorem rotateBack_eq {order index ambiguity : Nat} (hindex : index < order)
    (hambiguity : ambiguity < order) : rotateBack order index ambiguity =
      if ambiguity ≤ index then index - ambiguity else order + index - ambiguity := by
  unfold rotateBack
  split
  next hle =>
    have hsplit : order + index - ambiguity = index - ambiguity + order := by omega
    rw [hsplit, Nat.add_mod_right, Nat.mod_eq_of_lt (by omega)]
  next hlt => exact Nat.mod_eq_of_lt (by omega)

theorem add_mod_eq {order first second : Nat} (hfirst : first < order)
    (hsecond : second < order) : (first + second) % order =
      if first + second < order then first + second else first + second - order := by
  split
  next hlt => exact Nat.mod_eq_of_lt hlt
  next hge =>
    have hsplit : first + second = first + second - order + order := by omega
    rw [hsplit, Nat.add_mod_right, Nat.mod_eq_of_lt (by omega)]
    omega

/-- Moving forward and back again. -/
theorem rotateBack_add_mod {order index ambiguity : Nat} (hindex : index < order)
    (hambiguity : ambiguity < order) :
    rotateBack order ((index + ambiguity) % order) ambiguity = index := by
  rw [rotateBack_eq (Nat.mod_lt _ (Nat.zero_lt_of_lt hindex)) hambiguity,
    add_mod_eq hindex hambiguity]
  split <;> split <;> omega

/-- Moving back twice moves back by the sum. -/
theorem rotateBack_rotateBack {order index first second : Nat} (hindex : index < order)
    (hfirst : first < order) (hsecond : second < order) :
    rotateBack order (rotateBack order index first) second =
      rotateBack order index ((first + second) % order) := by
  have hpos : 0 < order := Nat.zero_lt_of_lt hindex
  rw [rotateBack_eq (rotateBack_lt hpos _ _) hsecond, rotateBack_eq hindex hfirst,
    rotateBack_eq hindex (Nat.mod_lt _ hpos), add_mod_eq hfirst hsecond]
  split <;> split <;> split <;> split <;> omega

end Symbols

section Conversion

variable {R : Type} [Arithmetic R] [SignLaws R] {ldM : Nat} {input : Nat → R}

omit [SignLaws R] in
/-- A converted soft bit is the original one or its negation. -/
theorem convertBit_cases (ldM : Nat) (input : Nat → R) (ambiguity p : Nat) :
    convertBit ldM input ambiguity p = input p ∨ convertBit ldM input ambiguity p = -input p := by
  unfold convertBit
  split
  · exact Or.inl rfl
  · dsimp only
    split
    · exact Or.inr rfl
    · exact Or.inl rfl

theorem magnitude_convertBit {p : Nat} (hsign : HasSign (input p)) (ambiguity : Nat) :
    magnitude (convertBit ldM input ambiguity p) = magnitude (input p) := by
  rcases convertBit_cases ldM input ambiguity p with h | h
  · rw [h]
  · rw [h, hsign.magnitude_neg]

/-- The sign of a converted soft bit is a bit of the mapping of the index without the
ambiguity. -/
theorem pos_convertBit (hpos : 0 < ldM) (hle : ldM ≤ 8) (ambiguity : Nat) {p : Nat}
    (hsign : HasSign (input p)) :
    0 < convertBit ldM input ambiguity p ↔
      (mpskMap (2 ^ ldM) (rotateBack (2 ^ ldM) (symbolIndex ldM input (p / ldM))
        ambiguity)).testBit (ldM - 1 - p % ldM) = true := by
  have hmod : p % ldM < ldM := Nat.mod_lt p hpos
  have hbit : (symbolBits ldM input (p / ldM)).testBit (ldM - 1 - p % ldM) =
      decide (0 < input p) := by
    rw [symbolBits, testBit_convertToChar hle _ hmod, Nat.div_add_mod]
  unfold convertBit
  split
  next hzero =>
    have hlt := symbolIndex_lt hle input (p / ldM)
    rw [hzero, rotateBack, Nat.sub_zero, Nat.add_mod_left, Nat.mod_eq_of_lt hlt, symbolIndex,
      mpskMap_mpskRevMap hle (symbolBits_lt hle _ _), hbit,
      decide_eq_true_iff]
  next =>
    -- the words are aligned to the left of a byte, their difference tells which signs to flip
    have hindex : 7 - (8 - ldM + p % ldM) = ldM - 1 - p % ldM := by omega
    dsimp only
    rw [extractBitLeft_eq_testBit _ (by omega), hindex, Nat.testBit_xor]
    change (0 < if ((symbolBits ldM input (p / ldM)).testBit _ ^^
      (mpskMap (2 ^ ldM) (rotateBack (2 ^ ldM) (symbolIndex ldM input (p / ldM))
        ambiguity)).testBit _) = true then _ else _) ↔ _
    rw [hbit]
    exact hsign.pos_flip _

/-- The conversion moves the index of a symbol back. -/
theorem symbolBits_convertBit (hpos : 0 < ldM) (hle : ldM ≤ 8) (ambiguity : Nat) {symbol : Nat}
    (hsign : ∀ j < ldM, HasSign (input (ldM * symbol + j))) :
    symbolBits ldM (convertBit ldM input ambiguity) symbol =
      mpskMap (2 ^ ldM) (rotateBack (2 ^ ldM) (symbolIndex ldM input symbol) ambiguity) := by
  apply convertToChar_eq hle (mpskMap_lt (rotateBack_lt (Nat.two_pow_pos ldM) _ _))
  intro j hj
  have hdiv : (ldM * symbol + j) / ldM = symbol := by
    rw [Nat.mul_add_div hpos, Nat.div_eq_of_lt hj, Nat.add_zero]
  have hmod : (ldM * symbol + j) % ldM = j := by
    rw [Nat.mul_add_mod, Nat.mod_eq_of_lt hj]
  have hbit := pos_convertBit hpos hle ambiguity (hsign j hj)
  rwa [hdiv, hmod] at hbit

/-- The positions of a symbol lie among whole symbols. -/
theorem position_lt {numBits symbol j : Nat} (hdvd : ldM ∣ numBits)
    (hsymbol : ldM * symbol < numBits) (hj : j < ldM) : ldM * symbol + j < numBits := by
  obtain ⟨symbols, rfl⟩ := hdvd
  have hnext : ldM * (symbol + 1) ≤ ldM * symbols :=
    Nat.mul_le_mul_left ldM (Nat.lt_of_mul_lt_mul_left hsymbol)
  rw [Nat.mul_succ] at hnext
  omega

/-- Streams of the same magnitudes and the same symbols are equal. -/
theorem eq_of_symbolBits (hpos : 0 < ldM) (hle : ldM ≤ 8) {other : Nat → R} {numBits p : Nat}
    (hsign : ∀ p < numBits, HasSign (input p))
    (hmagnitude : ∀ p < numBits, magnitude (other p) = magnitude (input p))
    (hbits : ∀ symbol, ldM * symbol < numBits →
      symbolBits ldM other symbol = symbolBits ldM input symbol)
    (hp : p < numBits) : other p = input p := by
  have hsymbol : ldM * (p / ldM) < numBits := Nat.lt_of_le_of_lt (Nat.mul_div_le p ldM) hp
  have hbit := congrArg (fun word => word.testBit (ldM - 1 - p % ldM)) (hbits _ hsymbol)
  simp only [symbolBits, testBit_convertToChar hle _ (Nat.mod_lt p hpos), Nat.div_add_mod,
    decide_eq_decide] at hbit
  exact ((hsign p hp).of_magnitude (hmagnitude p hp)).eq_of_magnitude (hsign p hp)
    (hmagnitude p hp) hbit

variable {numBits : Nat}

theorem hasSign_convertAmbiguity (hdvd : ldM ∣ numBits)
    (hsign : ∀ p < numBits, HasSign (input p)) (ambiguity : Nat) :
    ∀ p < numBits, HasSign (convertAmbiguity ldM input numBits ambiguity p) := by
  intro p hp
  rw [convertAmbiguity_of_lt input hdvd ambiguity hp]
  exact (hsign p hp).of_magnitude (magnitude_convertBit (hsign p hp) ambiguity)

theorem magnitude_convertAmbiguity (hdvd : ldM ∣ numBits)
    (hsign : ∀ p < numBits, HasSign (input p)) (ambiguity : Nat) {p : Nat} (hp : p < numBits) :
    magnitude (convertAmbiguity ldM input numBits ambiguity p) = magnitude (input p) := by
  rw [convertAmbiguity_of_lt input hdvd ambiguity hp, magnitude_convertBit (hsign p hp)]

theorem symbolBits_convertAmbiguity (hpos : 0 < ldM) (hle : ldM ≤ 8) (hdvd : ldM ∣ numBits)
    (hsign : ∀ p < numBits, HasSign (input p)) (ambiguity : Nat) {symbol : Nat}
    (hsymbol : ldM * symbol < numBits) :
    symbolBits ldM (convertAmbiguity ldM input numBits ambiguity) symbol =
      mpskMap (2 ^ ldM) (rotateBack (2 ^ ldM) (symbolIndex ldM input symbol) ambiguity) := by
  rw [← symbolBits_convertBit hpos hle ambiguity
    (fun j hj => hsign _ (position_lt hdvd hsymbol hj))]
  apply convertToChar_congr
  intro j hj
  exact convertAmbiguity_of_lt input hdvd ambiguity (position_lt hdvd hsymbol hj)

theorem symbolIndex_convertAmbiguity (hpos : 0 < ldM) (hle : ldM ≤ 8) (hdvd : ldM ∣ numBits)
    (hsign : ∀ p < numBits, HasSign (input p)) (ambiguity : Nat) {symbol : Nat}
    (hsymbol : ldM * symbol < numBits) :
    symbolIndex ldM (convertAmbiguity ldM input numBits ambiguity) symbol =
      rotateBack (2 ^ ldM) (symbolIndex ldM input symbol) ambiguity := by
  rw [symbolIndex, symbolBits_convertAmbiguity hpos hle hdvd hsign ambiguity hsymbol,
    mpskRevMap_mpskMap hle (rotateBack_lt (Nat.two_pow_pos ldM) _ _)]

/-- Converting back soft bits whose symbols have been moved forward. -/
theorem convertAmbiguity_undoes (hpos : 0 < ldM) (hle : ldM ≤ 8) (hdvd : ldM ∣ numBits)
    (hsign : ∀ p < numBits, HasSign (input p)) {ambiguity : Nat} (hambiguity : ambiguity < 2 ^ ldM)
    {rotated : Nat → R}
    (hmagnitude : ∀ p < numBits, magnitude (rotated p) = magnitude (input p))
    (hbits : ∀ symbol, ldM * symbol < numBits → symbolBits ldM rotated symbol =
      mpskMap (2 ^ ldM) ((symbolIndex ldM input symbol + ambiguity) % 2 ^ ldM)) :
    ∀ p < numBits, convertAmbiguity ldM rotated numBits ambiguity p = input p := by
  have hrotated : ∀ p < numBits, HasSign (rotated p) :=
    fun p hp => (hsign p hp).of_magnitude (hmagnitude p hp)
  intro p hp
  apply eq_of_symbolBits hpos hle hsign _ _ hp
  · intro q hq
    rw [magnitude_convertAmbiguity hdvd hrotated ambiguity hq, hmagnitude q hq]
  · intro symbol hsymbol
    have hindex : symbolIndex ldM rotated symbol =
        (symbolIndex ldM input symbol + ambiguity) % 2 ^ ldM := by
      rw [symbolIndex, hbits symbol hsymbol,
        mpskRevMap_mpskMap hle (Nat.mod_lt _ (Nat.two_pow_pos ldM))]
    rw [symbolBits_convertAmbiguity hpos hle hdvd hrotated ambiguity hsymbol, hindex,
      rotateBack_add_mod (symbolIndex_lt hle _ _) hambiguity, symbolIndex,
      mpskMap_mpskRevMap hle (symbolBits_lt hle _ _)]

/-- Converting twice converts with the sum of the ambiguities. -/
theorem convertAmbiguity_convertAmbiguity (hpos : 0 < ldM) (hle : ldM ≤ 8) (hdvd : ldM ∣ numBits)
    (hsign : ∀ p < numBits, HasSign (input p)) {first second : Nat} (hfirst : first < 2 ^ ldM)
    (hsecond : second < 2 ^ ldM) :
    ∀ p < numBits,
      convertAmbiguity ldM (convertAmbiguity ldM input numBits first) numBits second p =
        convertAmbiguity ldM input numBits ((first + second) % 2 ^ ldM) p := by
  have hconverted := hasSign_convertAmbiguity hdvd hsign first
  have hsum := hasSign_convertAmbiguity hdvd hsign ((first + second) % 2 ^ ldM)
  intro p hp
  apply eq_of_symbolBits hpos hle hsum _ _ hp
  · intro q hq
    rw [magnitude_convertAmbiguity hdvd hconverted second hq,
      magnitude_convertAmbiguity hdvd hsign first hq, magnitude_convertAmbiguity hdvd hsign _ hq]
  · intro symbol hsymbol
    rw [symbolBits_convertAmbiguity hpos hle hdvd hconverted second hsymbol,
      symbolIndex_convertAmbiguity hpos hle hdvd hsign first hsymbol,
      symbolBits_convertAmbiguity hpos hle hdvd hsign _ hsymbol,
      rotateBack_rotateBack (symbolIndex_lt hle _ _) hfirst hsecond]

/-- The conversion undoes a rotation of the constellation, adds up, and keeps magnitudes. -/
theorem convertAmbiguity_rotation (hpos : 0 < ldM) (hle : ldM ≤ 8) (hdvd : ldM ∣ numBits)
    (hsign : ∀ p < numBits, HasSign (input p)) {ambiguity : Nat}
    (hambiguity : ambiguity < 2 ^ ldM) :
    (∀ rotated : Nat → R,
      (∀ p < numBits, magnitude (rotated p) = magnitude (input p)) →
      (∀ symbol, ldM * symbol < numBits → symbolBits ldM rotated symbol =
        mpskMap (2 ^ ldM) ((symbolIndex ldM input symbol + ambiguity) % 2 ^ ldM)) →
      ∀ p < numBits, convertAmbiguity ldM rotated numBits ambiguity p = input p) ∧
    (∀ other < 2 ^ ldM, ∀ p < numBits,
      convertAmbiguity ldM (convertAmbiguity ldM input numBits ambiguity) numBits other p =
        convertAmbiguity ldM input numBits ((ambiguity + other) % 2 ^ ldM) p) ∧
    ∀ p < numBits,
      magnitude (convertAmbiguity ldM input numBits ambiguity p) = magnitude (input p) := by
  refine ⟨?_, ?_, ?_⟩
  · intro rotated hmagnitude hbits
    exact convertAmbiguity_undoes hpos hle hdvd hsign hambiguity hmagnitude hbits
  · intro other hother
    exact convertAmbiguity_convertAmbiguity hpos hle hdvd hsign hambiguity hother
  · intro p hp
    exact magnitude_convertAmbiguity hdvd hsign ambiguity hp

end Conversion

section Rationals

open scoped ExactNumbers

/-- Two symbols of QPSK. -/
def twoSymbols (p : Nat) : ℚ := [1, 2, -3, 1].getD p 0

/-- The same symbols one constellation point further. -/
def turnedSymbols (p : Nat) : ℚ := [-1, 2, -3, -1].getD p 0

theorem convertAmbiguity_rotation_qpsk :
    (List.range 4).map (convertAmbiguity 2 turnedSymbols 4 1) = (List.range 4).map twoSymbols := by
  have hsign : ∀ p < 4, HasSign (twoSymbols p) := by decide
  have hambiguity : 1 < 2 ^ 2 := by decide
  apply List.map_congr_left
  intro p hp
  refine (convertAmbiguity_rotation Nat.two_pos (by decide) (by decide) hsign hambiguity).1
    turnedSymbols ?_ ?_ p (List.mem_range.mp hp)
  · decide
  · intro symbol hsymbol
    obtain rfl | rfl : symbol = 0 ∨ symbol = 1 := by omega
    · decide
    · decide

end Rationals

end GrCcsds.Ambiguity
