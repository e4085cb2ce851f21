import Mathlib.InformationTheory.Hamming
import Mathlib.LinearAlgebra.Lagrange

/-! # Systematic block codes

A systematic code appends parity symbols to the data symbols. If two codewords
always differ in more than `2 * t` places then some decoder corrects any `t`
wrong symbols. Evaluating an interpolation polynomial over a field gives such a
code for every length up to the size of the field.
-/

namespace Foundation.BlockCode

open Polynomial

variable {Symbol : Type*} {dataSize paritySize : Nat}

/-- The data symbols followed by their parity symbols. -/
def codeword (parity : (Fin dataSize → Symbol) → Fin paritySize → Symbol)
    (data : Fin dataSize → Symbol) : Fin (dataSize + paritySize) → Symbol :=
  Fin.append data (parity data)

variable {Label : Type*} (labels : Label ≃ Symbol)

/-- The same code over other labels for its symbols. -/
def relabel (parity : (Fin dataSize → Symbol) → Fin paritySize → Symbol)
    (data : Fin dataSize → Label) : Fin paritySize → Label :=
  fun i => labels.symm (parity (fun j => labels (data j)) i)

theorem codeword_relabel (parity : (Fin dataSize → Symbol) → Fin paritySize → Symbol)
    (data : Fin dataSize → Label) :
    (fun i => labels (codeword (relabel labels parity) data i)) =
      codeword parity fun j => labels (data j) := by
  funext i
  induction i using Fin.addCases with
  | left j => simp [codeword]
  | right j => simp [codeword, relabel]

variable [DecidableEq Symbol]

/-- A decoder that recovers every codeword from a word with at most `wrong`
different symbols. -/
def Corrects (parity : (Fin dataSize → Symbol) → Fin paritySize → Symbol)
    (decode : (Fin (dataSize + paritySize) → Symbol) →
      Option (Fin (dataSize + paritySize) → Symbol)) (wrong : Nat) : Prop :=
  ∀ data word, hammingDist (codeword parity data) word ≤ wrong →
    decode word = some (codeword parity data)

/-- Different codewords differ in at least `distance` places. -/
def Separated (parity : (Fin dataSize → Symbol) → Fin paritySize → Symbol)
    (distance : Nat) : Prop :=
  ∀ first second, hammingDist (codeword parity first) (codeword parity second) < distance →
    first = second

/-- Relabelling keeps the distance of codewords. -/
theorem Separated.relabel [DecidableEq Label]
    {parity : (Fin dataSize → Symbol) → Fin paritySize → Symbol} {distance : Nat}
    (hseparated : Separated parity distance) :
    Separated (relabel labels parity) distance := by
  intro first second hdistance
  rw [← hammingDist_comp (fun _ => labels) (fun _ => labels.injective), codeword_relabel,
    codeword_relabel] at hdistance
  have hdata := hseparated _ _ hdistance
  funext i
  exact labels.injective (congrFun hdata i)

section Decoder

variable (parity : (Fin dataSize → Symbol) → Fin paritySize → Symbol) (wrong : Nat)

open Classical in
/-- The codeword within the given distance, if there is one. -/
noncomputable def nearest (word : Fin (dataSize + paritySize) → Symbol) :
    Option (Fin (dataSize + paritySize) → Symbol) :=
  if h : ∃ data, hammingDist (codeword parity data) word ≤ wrong then
    some (codeword parity h.choose)
  else none

/-- Spheres around separated codewords do not meet. -/
theorem nearest_corrects (hseparated : Separated parity (2 * wrong + 1)) :
    Corrects parity (nearest parity wrong) wrong := by
  intro data word hword
  have hexists : ∃ data, hammingDist (codeword parity data) word ≤ wrong := ⟨data, hword⟩
  rw [nearest, dif_pos hexists]
  have hchosen := hexists.choose_spec
  rw [hammingDist_comm] at hword
  have htriangle := hammingDist_triangle (codeword parity hexists.choose) word
    (codeword parity data)
  rw [hseparated hexists.choose data (by omega)]

end Decoder

section Evaluation

variable {F : Type*} [Field F]

/-- The parity symbols of the evaluation code: the polynomial through the data
at the first points, evaluated at the remaining points. -/
noncomputable def evaluationParity (point : Fin (dataSize + paritySize) → F)
    (data : Fin dataSize → F) : Fin paritySize → F :=
  fun i => (Lagrange.interpolate Finset.univ (fun j => point (Fin.castAdd paritySize j))
    data).eval (point (Fin.natAdd dataSize i))

variable {point : Fin (dataSize + paritySize) → F}

theorem interpolate_degree_lt (hpoint : Function.Injective point) (data : Fin dataSize → F) :
    (Lagrange.interpolate Finset.univ (fun j => point (Fin.castAdd paritySize j))
      data).degree < dataSize := by
  have hinjective : Set.InjOn (fun j => point (Fin.castAdd paritySize j))
      (Finset.univ : Finset (Fin dataSize)) := by
    intro a _ b _ heq
    exact Fin.castAdd_injective _ _ (hpoint heq)
  have hdegree := Lagrange.degree_interpolate_lt data hinjective
  rwa [Finset.card_univ, Fintype.card_fin] at hdegree

/-- Every symbol of a codeword is a value of its polynomial. -/
theorem codeword_evaluationParity (hpoint : Function.Injective point)
    (data : Fin dataSize → F) (i : Fin (dataSize + paritySize)) :
    codeword (evaluationParity point) data i =
      (Lagrange.interpolate Finset.univ (fun j => point (Fin.castAdd paritySize j))
        data).eval (point i) := by
  induction i using Fin.addCases with
  | left j =>
      rw [codeword, Fin.append_left]
      have hinjective : Set.InjOn (fun j => point (Fin.castAdd paritySize j))
          (Finset.univ : Finset (Fin dataSize)) := by
        intro a _ b _ heq
        exact Fin.castAdd_injective _ _ (hpoint heq)
      exact (Lagrange.eval_interpolate_at_node data hinjective (Finset.mem_univ j)).symm
  | right j =>
      rw [codeword, Fin.append_right]
      rfl

variable [DecidableEq F]

/-- Two codewords that agree in as many places as there are data symbols come
from the same data. -/
theorem evaluationParity_separated (hpoint : Function.Injective point) :
    Separated (evaluationParity point) (paritySize + 1) := by
  intro first second hdistance
  have hagree : dataSize ≤ (Finset.univ.filter fun i =>
      codeword (evaluationParity point) first i =
        codeword (evaluationParity point) second i).card := by
    have hsplit := Finset.card_filter_add_card_filter_not (s := Finset.univ) (fun i =>
      codeword (evaluationParity point) first i = codeword (evaluationParity point) second i)
    rw [Finset.card_univ, Fintype.card_fin] at hsplit
    simp only [hammingDist, ne_eq] at hdistance
    omega
  have hpoly : Lagrange.interpolate Finset.univ
        (fun j => point (Fin.castAdd paritySize j)) first =
      Lagrange.interpolate Finset.univ (fun j => point (Fin.castAdd paritySize j)) second := by
    apply Polynomial.eq_of_degrees_lt_of_eval_index_eq (Finset.univ.filter fun i =>
      codeword (evaluationParity point) first i = codeword (evaluationParity point) second i)
      (v := point) hpoint.injOn
    · exact (interpolate_degree_lt hpoint first).trans_le (by exact_mod_cast hagree)
    · exact (interpolate_degree_lt hpoint second).trans_le (by exact_mod_cast hagree)
    · intro i hi
      rw [← codeword_evaluationParity hpoint, ← codeword_evaluationParity hpoint]
      exact (Finset.mem_filter.mp hi).2
  funext i
  have hfirst := codeword_evaluationParity hpoint first (Fin.castAdd paritySize i)
  have hsecond := codeword_evaluationParity hpoint second (Fin.castAdd paritySize i)
  rw [codeword, Fin.append_left] at hfirst hsecond
  rw [hfirst, hsecond, hpoly]

end Evaluation

end Foundation.BlockCode
