import Mathlib.Data.List.Basic
import Mathlib.Data.Nat.Count
import Mathlib.Tactic.Common

/-! # Framed streams

A stream is cut into data blocks of a fixed length and the same prefix is put
in front of every block. A place in the framed stream is the number of complete
blocks before it and a position within the next block; the payload is what
remains of a framed stream when the prefixes are removed.
-/

namespace Foundation.Framing

variable {α : Type*} (pre : List α) (blockLen : Nat) (input : Nat → α)

/-- Data block `k` of a stream behind the prefix. -/
def block (k : Nat) : List α :=
  pre ++ (List.range blockLen).map fun j => input (k * blockLen + j)

/-- The first blocks of the framed stream. -/
def framed (count : Nat) : List α :=
  (List.range count).flatMap (block pre blockLen input)

/-- The elements behind the prefix of their block, in a part of a framed stream
that begins at a given position. -/
def payload (prefixLen blockLen : Nat) : Nat → List α → List α
  | _, [] => []
  | position, x :: rest =>
    if prefixLen ≤ position % (prefixLen + blockLen) then
      x :: payload prefixLen blockLen (position + 1) rest
    else payload prefixLen blockLen (position + 1) rest

/-- The output is the framed stream up to a position of the current block, and
what was consumed is the data before this position. -/
def Stands (out : List α) (consumed counter : Nat) : Prop :=
  ∃ blocks,
    out = framed pre blockLen input blocks ++
      (block pre blockLen input blocks).take counter ∧
    consumed = blocks * blockLen + (counter - pre.length)

@[simp] theorem length_block (k : Nat) :
    (block pre blockLen input k).length = pre.length + blockLen := by
  simp [block]

theorem framed_succ (count : Nat) :
    framed pre blockLen input (count + 1) =
      framed pre blockLen input count ++ block pre blockLen input count := by
  simp [framed, List.range_succ]

theorem length_framed (count : Nat) :
    (framed pre blockLen input count).length = count * (pre.length + blockLen) := by
  induction count with
  | zero => simp [framed]
  | succ count ih => rw [framed_succ, List.length_append, ih, length_block, Nat.succ_mul]

section Payload

variable {prefixLen blockLen}

theorem payload_append (first second : List α) (position : Nat) :
    payload prefixLen blockLen position (first ++ second) =
      payload prefixLen blockLen position first ++
        payload prefixLen blockLen (position + first.length) second := by
  induction first generalizing position with
  | nil => rfl
  | cons x rest ih =>
      have hshift : position + 1 + rest.length = position + (x :: rest).length := by
        simp [Nat.add_comm, Nat.add_left_comm]
      rw [List.cons_append, payload, payload, ih, hshift]
      split
      · rfl
      · rfl

theorem payload_eq_nil {position : Nat} {part : List α}
    (hpart : ∀ i < part.length, (position + i) % (prefixLen + blockLen) < prefixLen) :
    payload prefixLen blockLen position part = [] := by
  induction part generalizing position with
  | nil => rfl
  | cons x rest ih =>
      have hfirst : position % (prefixLen + blockLen) < prefixLen := hpart 0 (Nat.succ_pos _)
      rw [payload, if_neg (Nat.not_le_of_lt hfirst)]
      apply ih
      intro i hi
      have hnext := hpart (i + 1) (Nat.succ_lt_succ hi)
      rwa [← Nat.add_assoc, Nat.add_right_comm] at hnext

theorem payload_eq_self {position : Nat} {part : List α}
    (hdata : ∀ i < part.length, prefixLen ≤ (position + i) % (prefixLen + blockLen)) :
    payload prefixLen blockLen position part = part := by
  induction part generalizing position with
  | nil => rfl
  | cons x rest ih =>
      have hfirst : prefixLen ≤ position % (prefixLen + blockLen) := hdata 0 (Nat.succ_pos _)
      rw [payload, if_pos hfirst, ih]
      intro i hi
      have hnext := hdata (i + 1) (Nat.succ_lt_succ hi)
      rwa [← Nat.add_assoc, Nat.add_right_comm] at hnext

end Payload

section Place

variable {pre blockLen input} {out : List α} {consumed counter : Nat}

/-- The payload of the beginning of one block is the beginning of its data. -/
theorem payload_take_block (hcounter : counter ≤ pre.length + blockLen) (blocks : Nat) :
    payload pre.length blockLen (blocks * (pre.length + blockLen))
        ((block pre blockLen input blocks).take counter) =
      (List.range (counter - pre.length)).map fun j => input (blocks * blockLen + j) := by
  have hposition : ∀ i < pre.length + blockLen,
      (blocks * (pre.length + blockLen) + i) % (pre.length + blockLen) = i := by
    intro i hi
    rw [Nat.mul_comm, Nat.mul_add_mod, Nat.mod_eq_of_lt hi]
  rw [block, List.take_append, payload_append, payload_eq_nil, List.nil_append, ← List.map_take,
    List.take_range, Nat.min_eq_left (Nat.sub_le_iff_le_add'.mpr hcounter)]
  · apply payload_eq_self
    intro i hi
    simp only [List.length_map, List.length_range] at hi
    rw [List.length_take, Nat.min_eq_right (by omega), Nat.add_assoc, hposition _ (by omega)]
    exact Nat.le_add_right _ _
  · intro i hi
    rw [List.length_take] at hi
    rw [hposition i (by omega)]
    exact (Nat.lt_min.mp hi).2

theorem payload_framed (count : Nat) :
    payload pre.length blockLen 0 (framed pre blockLen input count) =
      (List.range (count * blockLen)).map input := by
  induction count with
  | zero => simp [framed, payload]
  | succ count ih =>
      have hblock := @payload_take_block α pre blockLen input _ (Nat.le_refl _) count
      rw [List.take_of_length_le (Nat.le_of_eq (length_block ..)),
        Nat.add_sub_cancel_left] at hblock
      rw [framed_succ, payload_append, ih, length_framed, Nat.zero_add, hblock, Nat.succ_mul,
        List.range_add, List.map_append, List.map_map]
      rfl

theorem stands_start : Stands pre blockLen input [] 0 0 := ⟨0, by simp [framed], by simp⟩

/-- Copying a part of the prefix. -/
theorem Stands.copy_front (hstands : Stands pre blockLen input out consumed counter) {count : Nat}
    (hcount : counter + count ≤ pre.length) :
    Stands pre blockLen input (out ++ (pre.drop counter).take count) consumed
      (counter + count) := by
  obtain ⟨blocks, rfl, rfl⟩ := hstands
  refine ⟨blocks, ?_, by omega⟩
  rw [List.append_assoc, List.take_add, block, List.drop_append_of_le_length (by omega)]
  congr 1
  have hroom : count ≤ (pre.drop counter).length := by
    rw [List.length_drop]
    omega
  rw [List.take_append_of_le_length hroom]

/-- Copying the data that follows what was consumed. -/
theorem Stands.copy_data (hstands : Stands pre blockLen input out consumed counter) {count : Nat}
    (hdata : pre.length ≤ counter) (hcount : counter + count ≤ pre.length + blockLen) :
    Stands pre blockLen input (out ++ (List.range count).map fun j => input (consumed + j))
      (consumed + count) (counter + count) := by
  obtain ⟨blocks, rfl, rfl⟩ := hstands
  refine ⟨blocks, ?_, by omega⟩
  rw [List.append_assoc, List.take_add, block, List.drop_append, List.drop_of_length_le hdata,
    List.nil_append]
  congr 2
  apply List.ext_getElem
  · simp only [List.length_map, List.length_range, List.length_take, List.length_drop]
    omega
  · intro i _ _
    simp [Nat.add_assoc]

/-- A complete block is followed by the beginning of the next one. -/
theorem Stands.next_block
    (hstands : Stands pre blockLen input out consumed (pre.length + blockLen)) :
    Stands pre blockLen input out consumed 0 := by
  obtain ⟨blocks, rfl, rfl⟩ := hstands
  refine ⟨blocks + 1, ?_, ?_⟩
  · rw [framed_succ, List.take_of_length_le (Nat.le_of_eq (length_block ..)), List.take_zero,
      List.append_nil]
  · rw [Nat.add_sub_cancel_left, Nat.zero_sub, Nat.succ_mul, Nat.add_zero]

/-- What was consumed is the payload of the output. -/
theorem Stands.payload_eq (hstands : Stands pre blockLen input out consumed counter)
    (hcounter : counter < pre.length + blockLen) :
    payload pre.length blockLen 0 out = (List.range consumed).map input := by
  obtain ⟨blocks, rfl, rfl⟩ := hstands
  rw [payload_append, payload_framed, length_framed, Nat.zero_add,
    payload_take_block (Nat.le_of_lt hcounter), List.range_add, List.map_append, List.map_map]
  rfl

end Place

section Count

/-- A position of the framed stream that is not in a prefix. -/
def IsData (prefixLen blockLen position : Nat) : Prop :=
  prefixLen ≤ position % (prefixLen + blockLen)

instance (prefixLen blockLen : Nat) : DecidablePred (IsData prefixLen blockLen) :=
  fun _ => Nat.decLe _ _

variable {prefixLen blockLen}

theorem isData_add_mul (position blocks : Nat) :
    IsData prefixLen blockLen (position + blocks * (prefixLen + blockLen)) ↔
      IsData prefixLen blockLen position := by
  rw [IsData, IsData, Nat.add_mul_mod_self_right]

theorem count_isData_block :
    Nat.count (IsData prefixLen blockLen) (prefixLen + blockLen) = blockLen := by
  have hfront : Nat.count (IsData prefixLen blockLen) prefixLen = 0 := by
    rw [Nat.count_iff_forall_not]
    intro i hi
    rw [IsData, Nat.mod_eq_of_lt (Nat.lt_add_right blockLen hi)]
    exact Nat.not_le_of_lt hi
  rw [Nat.count_add, hfront, Nat.zero_add, Nat.count_iff_forall]
  intro i hi
  rw [IsData, Nat.mod_eq_of_lt (Nat.add_lt_add_left hi prefixLen)]
  exact Nat.le_add_right _ _

/-- Whole blocks have the same number of data positions, wherever they begin. -/
theorem count_isData_add_mul (position blocks : Nat) :
    Nat.count (IsData prefixLen blockLen) (position + blocks * (prefixLen + blockLen)) =
      Nat.count (IsData prefixLen blockLen) position + blocks * blockLen := by
  induction position with
  | zero =>
      induction blocks with
      | zero => simp
      | succ blocks ih =>
          rw [Nat.zero_add] at ih ⊢
          have hshift : (fun i => IsData prefixLen blockLen
              (blocks * (prefixLen + blockLen) + i)) = IsData prefixLen blockLen := by
            funext i
            rw [Nat.add_comm, eq_iff_iff]
            exact isData_add_mul i blocks
          rw [Nat.succ_mul, Nat.count_add, ih, Nat.succ_mul, ← Nat.add_assoc]
          simp only [hshift, count_isData_block]
  | succ position ih =>
      rw [Nat.succ_add, Nat.count_succ, ih, Nat.count_succ]
      simp only [isData_add_mul]
      exact Nat.add_right_comm _ _ _

theorem length_payload (position : Nat) (part : List α) :
    (payload prefixLen blockLen position part).length =
      Nat.count (fun i => IsData prefixLen blockLen (position + i)) part.length := by
  induction part generalizing position with
  | nil => rfl
  | cons x rest ih =>
      have hrest := ih (position + 1)
      simp only [Nat.add_assoc, Nat.add_comm 1] at hrest
      rw [List.length_cons, Nat.count_succ', ← hrest, payload]
      by_cases hdata : prefixLen ≤ position % (prefixLen + blockLen)
      · simp [IsData, hdata]
      · simp [IsData, hdata]

variable {out : List α} {consumed counter : Nat} {pre input}

/-- As many elements were consumed as data positions have been reached. -/
theorem Stands.consumed_eq (hstands : Stands pre blockLen input out consumed counter)
    (hcounter : counter < pre.length + blockLen) :
    consumed = Nat.count (IsData pre.length blockLen) out.length := by
  have hpayload := congrArg List.length (hstands.payload_eq hcounter)
  rw [length_payload, List.length_map, List.length_range] at hpayload
  simpa using hpayload.symm

/-- The counter tells whether the next position is in a prefix. -/
theorem Stands.isData_iff (hstands : Stands pre blockLen input out consumed counter)
    (hcounter : counter < pre.length + blockLen) :
    IsData pre.length blockLen out.length ↔ pre.length ≤ counter := by
  obtain ⟨blocks, rfl, rfl⟩ := hstands
  have htake : ((block pre blockLen input blocks).take counter).length = counter := by
    rw [List.length_take, length_block]
    exact Nat.min_eq_left hcounter.le
  rw [List.length_append, length_framed, htake, Nat.add_comm, isData_add_mul, IsData,
    Nat.mod_eq_of_lt hcounter]

end Count

end Foundation.Framing
