import Mathlib.Algebra.Order.Group.Nat
import Mathlib.Data.List.Induction
import Mathlib.Tactic.Common

/-! # Bits in transmission order

The bits of a word as a list, the most significant one first. Shifting a word
drops bits at the front or appends them at the end, and the bits of two words
that do not overlap are combined by a bitwise or.
-/

namespace Foundation.Bits

variable {width : Nat}

/-- The lowest `n` bits of a word, the most significant of them first. -/
def low : (n : Nat) → BitVec width → List Bool
  | 0, _ => []
  | n + 1, word => word.getLsbD n :: low n word

/-- The highest `n` bits of a word. -/
def high (n : Nat) (word : BitVec width) : List Bool := low n (word >>> (width - n))

/-- The bits of a sequence of bytes. -/
def ofBytes (bytes : List UInt8) : List Bool := bytes.flatMap fun byte => low 8 byte.toBitVec

/-- Piece `i` of a sequence of bits that is cut into pieces of one size. -/
def slice (size i : Nat) (bits : List Bool) : List Bool := (bits.drop (size * i)).take size

/-- The number with the given bits, the most significant one first. -/
def value (bits : List Bool) : Nat := bits.foldl (fun n bit => 2 * n + bit.toNat) 0

@[simp] theorem length_low (n : Nat) (word : BitVec width) : (low n word).length = n := by
  induction n with
  | zero => rfl
  | succ n ih => simp [low, ih]

@[simp] theorem getElem_low (n i : Nat) (word : BitVec width) (hi : i < (low n word).length) :
    (low n word)[i] = word.getLsbD (n - 1 - i) := by
  induction n generalizing i with
  | zero => exact absurd hi (Nat.not_lt_zero _)
  | succ n ih =>
      cases i with
      | zero => rfl
      | succ i =>
          rw [length_low] at hi
          simp only [low, List.getElem_cons_succ]
          rw [ih]
          congr 1
          omega

/-- Words that agree in their lowest bits have the same lowest bits. -/
theorem low_congr {otherWidth n : Nat} {word : BitVec width} {other : BitVec otherWidth}
    (hagree : ∀ i < n, word.getLsbD i = other.getLsbD i) : low n word = low n other := by
  induction n with
  | zero => rfl
  | succ n ih =>
      rw [low, low, hagree n (Nat.lt_succ_self n)]
      congr 1
      exact ih fun i hi => hagree i (Nat.lt_succ_of_lt hi)

theorem drop_low (n dropped : Nat) (word : BitVec width) :
    (low n word).drop dropped = low (n - dropped) word := by
  induction dropped generalizing n with
  | zero => rfl
  | succ dropped ih =>
      cases n with
      | zero => simp [low]
      | succ n =>
          rw [low, List.drop_succ_cons, ih, Nat.succ_sub_succ]

theorem take_low {n taken : Nat} (word : BitVec width) (htaken : taken ≤ n) :
    (low n word).take taken = low taken (word >>> (n - taken)) := by
  apply List.ext_getElem
  · rw [List.length_take, length_low, length_low, Nat.min_eq_left htaken]
  · intro i _ hi
    rw [length_low] at hi
    rw [List.getElem_take, getElem_low, getElem_low, BitVec.getLsbD_ushiftRight]
    congr 1
    omega

/-- Shifting in one bit appends it. -/
theorem low_shiftLeft_one (n : Nat) (word : BitVec width) (bit : Bool) (hn : n < width) :
    low (n + 1) (word <<< 1 ||| (BitVec.ofBool bit).setWidth width) = low n word ++ [bit] := by
  induction n with
  | zero => simp [low, hn]
  | succ n ih =>
      have hlt := Nat.lt_of_succ_lt hn
      rw [low, ih hlt, low, BitVec.getLsbD_eq_getElem hlt]
      simp [hn]

/-- The bits of two words side by side in one. -/
theorem low_append {n m : Nat} (first second : BitVec width) (hwidth : n + m ≤ width)
    (hsecond : ∀ i ≥ m, second.getLsbD i = false) :
    low (n + m) (first <<< m ||| second) = low n first ++ low m second := by
  induction n with
  | zero =>
      rw [Nat.zero_add, low, List.nil_append]
      apply low_congr
      intro i hi
      simp [hi]
  | succ n ih =>
      have hlt : n + m < width := by omega
      rw [Nat.add_right_comm, low, ih (Nat.le_of_lt hlt), low, List.cons_append]
      congr 1
      rw [BitVec.getLsbD_or, BitVec.getLsbD_shiftLeft, hsecond _ (Nat.le_add_left m n),
        Bool.or_false]
      simp [hlt]

/-- The highest bits of a word that has been shifted up are the lowest bits of
the word before the shift. -/
theorem high_shiftLeft {n : Nat} (word : BitVec width) (hn : n ≤ width) :
    high n (word <<< (width - n)) = low n word := by
  apply low_congr
  intro i hi
  rw [BitVec.getLsbD_ushiftRight, BitVec.getLsbD_shiftLeft]
  have hbelow : width - n + i < width := by omega
  simp [hbelow]

/-- A bit of a word at the lowest position. -/
theorem shiftRight_and_one (word : BitVec width) (i : Nat) :
    (word >>> i) &&& BitVec.ofNat width 1 = (BitVec.ofBool (word.getLsbD i)).setWidth width := by
  rw [BitVec.and_one_eq_setWidth_ofBool_getLsbD, BitVec.getLsbD_ushiftRight, Nat.add_zero]

/-- A mask with one bit tests that bit. -/
theorem and_mask_ne_zero (word : BitVec width) {k : Nat} (hk : k < width) :
    (word &&& BitVec.ofNat width 1 <<< k != BitVec.ofNat width 0) = word.getLsbD k := by
  rw [← BitVec.twoPow_eq, BitVec.and_twoPow]
  cases word.getLsbD k with
  | true =>
      have hne : BitVec.twoPow width k ≠ BitVec.ofNat width 0 := by
        intro hzero
        have hbit := congrArg (fun word => word.getLsbD k) hzero
        simp [hk] at hbit
      simpa using hne
  | false => simp

theorem ofBytes_append (first second : List UInt8) :
    ofBytes (first ++ second) = ofBytes first ++ ofBytes second := List.flatMap_append

@[simp] theorem ofBytes_nil : ofBytes [] = [] := rfl

@[simp] theorem ofBytes_cons (byte : UInt8) (rest : List UInt8) :
    ofBytes (byte :: rest) = low 8 byte.toBitVec ++ ofBytes rest := List.flatMap_cons

@[simp] theorem length_ofBytes (bytes : List UInt8) :
    (ofBytes bytes).length = 8 * bytes.length := by
  induction bytes with
  | nil => rfl
  | cons byte rest ih => rw [ofBytes_cons, List.length_append, length_low, ih, List.length_cons,
      Nat.mul_succ, Nat.add_comm]

/-- Bit `i` of a sequence of bytes. -/
theorem getElem_ofBytes {bytes : List UInt8} {i : Nat} (hi : i < (ofBytes bytes).length)
    (hbyte : i / 8 < bytes.length) :
    (ofBytes bytes)[i] = bytes[i / 8].toBitVec.getLsbD (7 - i % 8) := by
  induction bytes generalizing i with
  | nil => exact absurd hbyte (Nat.not_lt_zero _)
  | cons byte rest ih =>
      simp only [ofBytes_cons]
      rcases Nat.lt_or_ge i 8 with hfirst | hrest
      · rw [List.getElem_append_left (by rwa [length_low]), getElem_low]
        simp [Nat.div_eq_of_lt hfirst, Nat.mod_eq_of_lt hfirst]
      · obtain ⟨k, rfl⟩ := Nat.exists_eq_add_of_le' hrest
        have hdiv : (k + 8) / 8 = k / 8 + 1 := Nat.add_div_right k (Nat.succ_pos 7)
        rw [List.getElem_append_right (by rwa [length_low])]
        simp only [length_low, Nat.add_sub_cancel, hdiv, Nat.add_mod_right,
          List.getElem_cons_succ]
        rw [length_ofBytes, List.length_cons] at hi
        rw [hdiv, List.length_cons] at hbyte
        exact ih (by rw [length_ofBytes]; omega) (Nat.lt_of_succ_lt_succ hbyte)

/-- The word with the given bits, the most significant one first. -/
def ofBits (bits : List Bool) : BitVec 8 :=
  bits.foldl (fun word bit => word <<< 1 ||| (BitVec.ofBool bit).setWidth 8) 0

/-- The bytes of a sequence of bits. A rest of less than eight bits is dropped. -/
def toBytes (bits : List Bool) : List UInt8 :=
  (List.range (bits.length / 8)).map fun i => UInt8.ofBitVec (ofBits ((bits.drop (8 * i)).take 8))

/-- The byte with eight bits, the first one as the most significant one. -/
def byteOf (bit : Nat → Bool) : UInt8 := UInt8.ofBitVec (ofBits ((List.range 8).map bit))

theorem byteOf_congr {bit other : Nat → Bool} (hagree : ∀ j < 8, bit j = other j) :
    byteOf bit = byteOf other := by
  have hbits : (List.range 8).map bit = (List.range 8).map other :=
    List.map_congr_left fun j hj => hagree j (List.mem_range.mp hj)
  rw [byteOf, byteOf, hbits]

@[simp] theorem length_toBytes (bits : List Bool) : (toBytes bits).length = bits.length / 8 := by
  simp [toBytes]

/-- The bits of a byte are read one by one. -/
theorem toBytes_eq_map (bits : List Bool) :
    toBytes bits = (List.range (bits.length / 8)).map fun i =>
      byteOf fun j => bits[8 * i + j]?.getD false := by
  apply List.map_congr_left
  intro i hi
  have hinside : 8 * i + 8 ≤ bits.length := by
    have hlt := List.mem_range.mp hi
    omega
  rw [byteOf]
  congr 2
  apply List.ext_getElem
  · rw [List.length_take, List.length_drop, List.length_map, List.length_range]
    omega
  · intro j hj _
    rw [List.length_take, List.length_drop] at hj
    have hbit : 8 * i + j < bits.length := by omega
    simp [hbit]

theorem toBytes_append {first : List Bool} (second : List Bool) (hdvd : 8 ∣ first.length) :
    toBytes (first ++ second) = toBytes first ++ toBytes second := by
  obtain ⟨count, hcount⟩ := hdvd
  have hsplit : (first ++ second).length / 8 = count + second.length / 8 := by
    rw [List.length_append, hcount, Nat.mul_add_div (Nat.succ_pos 7)]
  have hfirst : first.length / 8 = count := by
    rw [hcount, Nat.mul_div_cancel_left _ (Nat.succ_pos 7)]
  rw [toBytes_eq_map, toBytes_eq_map, toBytes_eq_map, hsplit, hfirst, List.range_add,
    List.map_append, List.map_map]
  congr 1
  · apply List.map_congr_left
    intro i hi
    apply byteOf_congr
    intro j hj
    have hlt := List.mem_range.mp hi
    rw [List.getElem?_append_left (by omega)]
  · apply List.map_congr_left
    intro i _
    rw [Function.comp_apply]
    apply byteOf_congr
    intro j _
    have hindex : 8 * (count + i) + j - first.length = 8 * i + j := by omega
    rw [List.getElem?_append_right (by omega), hindex]

theorem low_ofBits {bits : List Bool} (hbits : bits.length ≤ 8) :
    low bits.length (ofBits bits) = bits := by
  induction bits using List.reverseRecOn with
  | nil => rfl
  | append_singleton front last ih =>
      rw [List.length_append, List.length_singleton] at hbits ⊢
      rw [ofBits, List.foldl_append, List.foldl_cons, List.foldl_nil,
        low_shiftLeft_one _ _ _ (Nat.lt_of_succ_le hbits)]
      congr 1
      exact ih (Nat.le_of_succ_le hbits)

/-- A word has only one sequence of bits. -/
theorem low_injective {word other : BitVec width} (hlow : low width word = low width other) :
    word = other := by
  apply BitVec.eq_of_getLsbD_eq
  intro i hi
  have hbit : (low width word)[width - 1 - i]? = (low width other)[width - 1 - i]? := by rw [hlow]
  have hindex : width - 1 - (width - 1 - i) = i := by omega
  simpa [List.getElem?_eq_getElem, Nat.sub_one_sub_lt_of_lt hi, hindex] using hbit

theorem ofBytes_toBytes {bits : List Bool} (hdvd : 8 ∣ bits.length) :
    ofBytes (toBytes bits) = bits := by
  obtain ⟨count, hcount⟩ := hdvd
  induction count generalizing bits with
  | zero =>
      rw [List.length_eq_zero_iff.mp hcount]
      rfl
  | succ count ih =>
      have hfirst : (bits.take 8).length = 8 := by
        rw [List.length_take]
        omega
      have hrest : (bits.drop 8).length = 8 * count := by
        rw [List.length_drop]
        omega
      have hsplit : toBytes bits =
          UInt8.ofBitVec (ofBits (bits.take 8)) :: toBytes (bits.drop 8) := by
        simp only [toBytes, hcount, hrest, Nat.mul_div_cancel_left _ (Nat.succ_pos 7),
          List.range_succ_eq_map, List.map_cons, List.map_map, List.drop_drop, Nat.mul_zero,
          List.drop_zero]
        congr 2
        funext i
        rw [Function.comp_apply, Nat.mul_succ, Nat.add_comm]
      have hbyte := low_ofBits (Nat.le_of_eq hfirst)
      rw [hfirst] at hbyte
      rw [hsplit, ofBytes_cons, ih hrest]
      change low 8 (ofBits (bits.take 8)) ++ _ = _
      rw [hbyte, List.take_append_drop]

theorem ofBytes_injective {first second : List UInt8} (hbits : ofBytes first = ofBytes second) :
    first = second := by
  induction first generalizing second with
  | nil =>
      have hlength := congrArg List.length hbits
      cases second with
      | nil => rfl
      | cons byte rest =>
          simp only [length_ofBytes, List.length_cons, List.length_nil] at hlength
          omega
  | cons byte rest ih =>
      cases second with
      | nil =>
          have hlength := congrArg List.length hbits
          simp only [length_ofBytes, List.length_cons, List.length_nil] at hlength
          omega
      | cons other others =>
          rw [ofBytes_cons, ofBytes_cons] at hbits
          obtain ⟨hbyte, hrest⟩ := List.append_inj hbits (by simp)
          rw [ih hrest, UInt8.toBitVec_inj.mp (low_injective hbyte)]

theorem toBytes_ofBytes (bytes : List UInt8) : toBytes (ofBytes bytes) = bytes := by
  apply ofBytes_injective
  apply ofBytes_toBytes
  rw [length_ofBytes]
  exact Nat.dvd_mul_right _ _

theorem low_xor (n : Nat) (word other : BitVec width) :
    low n (word ^^^ other) = List.zipWith (· ^^ ·) (low n word) (low n other) := by
  induction n with
  | zero => rfl
  | succ n ih => simp [low, ih]

theorem length_slice {size i : Nat} {bits : List Bool} (hinside : size * (i + 1) ≤ bits.length) :
    (slice size i bits).length = size := by
  rw [slice, List.length_take, List.length_drop]
  rw [Nat.mul_succ] at hinside
  omega

/-- A piece that ends inside a prefix is a piece of that prefix. -/
theorem slice_take {size i count : Nat} (bits : List Bool) (hinside : size * (i + 1) ≤ count) :
    slice size i (bits.take count) = slice size i bits := by
  rw [Nat.mul_succ] at hinside
  rw [slice, slice, List.drop_take, List.take_take, Nat.min_eq_left]
  omega

theorem value_append_singleton (bits : List Bool) (bit : Bool) :
    value (bits ++ [bit]) = 2 * value bits + bit.toNat := by
  simp [value]

theorem value_lt (bits : List Bool) : value bits < 2 ^ bits.length := by
  induction bits using List.reverseRecOn with
  | nil => exact Nat.one_pos
  | append_singleton front last ih =>
      rw [value_append_singleton, List.length_append, List.length_singleton, Nat.pow_succ]
      have hlast := Bool.toNat_lt last
      omega

theorem ofBits_append_singleton (bits : List Bool) (bit : Bool) :
    ofBits (bits ++ [bit]) = ofBits bits <<< 1 ||| (BitVec.ofBool bit).setWidth 8 := by
  simp [ofBits]

/-- A byte keeps the last eight bits that are shifted into it. -/
theorem toNat_ofBits (bits : List Bool) : (ofBits bits).toNat = value bits % 256 := by
  induction bits using List.reverseRecOn with
  | nil => rfl
  | append_singleton front last ih =>
      have hshift : ((ofBits front).toNat <<< 1) % 2 ^ 8 = ((ofBits front).toNat % 128) <<< 1 := by
        rw [Nat.shiftLeft_eq, Nat.shiftLeft_eq]
        omega
      have hlast : last.toNat < 2 ^ 1 := Bool.toNat_lt last
      have hbit : ((BitVec.ofBool last).setWidth 8).toNat = last.toNat := by
        cases last <;> rfl
      rw [ofBits_append_singleton, BitVec.toNat_or, BitVec.toNat_shiftLeft, hshift, hbit,
        ← Nat.shiftLeft_add_eq_or_of_lt hlast, ih, Nat.shiftLeft_eq,
        value_append_singleton]
      omega

end Foundation.Bits
