import Mathlib.Logic.Function.Basic
import Mathlib.Order.Lattice
import Mathlib.Tactic.Common

/-! # Stores of latest values

A store keeps the value of the last record that has been put under each key.
If records come in batches, each sorted by position, and no batch brings back
a key from before a record that has been put, the store always holds the value
of the record with the highest position.
-/

namespace Foundation.LatestValue

variable {Record Key Value Position : Type*} [DecidableEq Key] [LinearOrder Position]

/-- Put a record into a store. -/
def put (key : Record → Key) (value : Record → Value) (store : Key → Option Value)
    (record : Record) : Key → Option Value :=
  Function.update store (key record) (some (value record))

/-- The store holds the value of a record with the highest position under each key, and nothing
under other keys. -/
def IsLatest (key : Record → Key) (value : Record → Value) (position : Record → Position)
    (records : List Record) (store : Key → Option Value) : Prop :=
  ∀ k, (∀ record ∈ records, key record ≠ k) ∧ store k = none ∨
    ∃ latest ∈ records, key latest = k ∧ store k = some (value latest) ∧
      ∀ record ∈ records, key record = k → position record ≤ position latest

variable {key : Record → Key} {value : Record → Value} {position : Record → Position}
  {records batch : List Record} {store : Key → Option Value}

omit [LinearOrder Position] in
/-- Records with other keys leave a value alone. -/
theorem foldl_put_of_ne {k : Key} (hkey : ∀ record ∈ batch, key record ≠ k) :
    batch.foldl (put key value) store k = store k := by
  induction batch generalizing store with
  | nil => rfl
  | cons record rest ih =>
      rw [List.foldl_cons, ih fun r hr => hkey r (List.mem_cons_of_mem _ hr)]
      exact Function.update_of_ne (hkey record List.mem_cons_self).symm _ _

omit [DecidableEq Key] in
/-- The last record of a sorted batch with a property, in front of records without it. -/
theorem exists_last {p : Record → Prop}
    (hsorted : batch.Pairwise fun x y => position x ≤ position y)
    (hmem : ∃ record ∈ batch, p record) :
    ∃ before latest after, batch = before ++ latest :: after ∧ p latest ∧
      (∀ record ∈ after, ¬ p record) ∧
      ∀ record ∈ batch, p record → position record ≤ position latest := by
  induction batch with
  | nil =>
      obtain ⟨record, hrecord, -⟩ := hmem
      exact absurd hrecord List.not_mem_nil
  | cons first rest ih =>
      obtain ⟨hfirst, hrest⟩ := List.pairwise_cons.mp hsorted
      by_cases hlater : ∃ record ∈ rest, p record
      · obtain ⟨before, latest, after, rfl, hp, hafter, hhighest⟩ := ih hrest hlater
        refine ⟨first :: before, latest, after, rfl, hp, hafter, ?_⟩
        intro record hrecord hholds
        rcases List.mem_cons.mp hrecord with rfl | hrecord
        · exact hfirst latest (by simp)
        · exact hhighest record hrecord hholds
      · have hothers : ∀ record ∈ rest, ¬ p record :=
          fun record hrecord hholds => hlater ⟨record, hrecord, hholds⟩
        -- the property holds somewhere, but not behind the first record
        obtain ⟨record, hrecord, hholds⟩ := hmem
        rcases List.mem_cons.mp hrecord with rfl | hrecord
        · refine ⟨[], record, rest, rfl, hholds, hothers, ?_⟩
          intro other hother hother'
          rcases List.mem_cons.mp hother with rfl | hother
          · exact le_refl _
          · exact absurd hother' (hothers other hother)
        · exact absurd hholds (hothers record hrecord)

/-- After a sorted batch the store holds the last record of a key that occurs in it. -/
theorem foldl_put_of_mem (value : Record → Value) (store : Key → Option Value) {k : Key}
    (hsorted : batch.Pairwise fun x y => position x ≤ position y)
    (hkey : ∃ record ∈ batch, key record = k) :
    ∃ latest ∈ batch, key latest = k ∧
      batch.foldl (put key value) store k = some (value latest) ∧
      ∀ record ∈ batch, key record = k → position record ≤ position latest := by
  obtain ⟨before, latest, after, rfl, hk, hafter, hhighest⟩ := exists_last hsorted hkey
  refine ⟨latest, by simp, hk, ?_, hhighest⟩
  rw [List.foldl_append, List.foldl_cons, foldl_put_of_ne hafter, put, hk, Function.update_self]

omit [DecidableEq Key] in
theorem isLatest_nil : IsLatest key value position [] (fun _ => none) :=
  fun _ => Or.inl ⟨fun _ h => absurd h List.not_mem_nil, rfl⟩

/-- A sorted batch keeps the store up to date if no old record is behind the batch's last one of
the same key. -/
theorem IsLatest.append (hlatest : IsLatest key value position records store)
    (hsorted : batch.Pairwise fun x y => position x ≤ position y)
    (hnewer : ∀ old ∈ records, ∀ record ∈ batch, key old = key record →
      ∃ last ∈ batch, key last = key record ∧ position old ≤ position last) :
    IsLatest key value position (records ++ batch) (batch.foldl (put key value) store) := by
  intro k
  by_cases hkey : ∃ record ∈ batch, key record = k
  · right
    obtain ⟨latest, hmem, hk, hvalue, hhighest⟩ :=
      foldl_put_of_mem value store hsorted hkey
    refine ⟨latest, List.mem_append_right _ hmem, hk, hvalue, ?_⟩
    intro record hrecord hsame
    rcases List.mem_append.mp hrecord with hold | hnew
    · obtain ⟨last, hlast, hlastKey, hle⟩ := hnewer record hold latest hmem (hsame.trans hk.symm)
      exact hle.trans (hhighest last hlast (hlastKey.trans hk))
    · exact hhighest record hnew hsame
  · have hothers : ∀ record ∈ batch, key record ≠ k :=
      fun record hrecord hsame => hkey ⟨record, hrecord, hsame⟩
    rw [foldl_put_of_ne hothers]
    rcases hlatest k with ⟨hnone, hempty⟩ | ⟨latest, hmem, hk, hvalue, hhighest⟩
    · left
      refine ⟨?_, hempty⟩
      intro record hrecord
      rcases List.mem_append.mp hrecord with hold | hnew
      · exact hnone record hold
      · exact hothers record hnew
    · right
      refine ⟨latest, List.mem_append_left _ hmem, hk, hvalue, ?_⟩
      intro record hrecord hsame
      rcases List.mem_append.mp hrecord with hold | hnew
      · exact hhighest record hold hsame
      · exact absurd hsame (hothers record hnew)

end Foundation.LatestValue
