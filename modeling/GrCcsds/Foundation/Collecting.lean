import Mathlib.Data.List.Nodup
import Mathlib.Order.Lattice
import Mathlib.Tactic.Common

/-! # Collecting items from overlapping look-ups

Each look-up returns the items of a range, sorted by position, and the items
that are not known yet are appended. If every range starts at or below the end
of the range before, everything below the last end is known once, in order.
-/

namespace Foundation.Collecting

variable {Item Position : Type*} [DecidableEq Item] [LinearOrder Position]

/-- Append an item that is not known yet. -/
def append (known : List Item) (item : Item) : List Item :=
  if item ∈ known then known else known ++ [item]

omit [LinearOrder Position] in
/-- A batch of different items adds those that were not known before. -/
theorem foldl_append {batch : List Item} (hnodup : batch.Nodup) (known : List Item) :
    batch.foldl append known = known ++ batch.filter fun item => item ∉ known := by
  induction batch generalizing known with
  | nil => simp
  | cons item rest ih =>
      obtain ⟨hnot, hrest⟩ := List.nodup_cons.mp hnodup
      rw [List.foldl_cons, ih hrest]
      by_cases hknown : item ∈ known
      · simp [append, hknown]
      · have hsame : rest.filter (fun x => x ∉ known ++ [item]) =
            rest.filter fun x => x ∉ known := by
          apply List.filter_congr
          intro x hx
          have hne : x ≠ item := fun heq => hnot (heq ▸ hx)
          simp [hne]
        simp only [append, if_neg hknown, hsame]
        simp [hknown]

/-- A batch consists of the items between two positions, in order. -/
structure LookUp (position : Item → Position) (items : List Item) (start stop : Position)
    (batch : List Item) : Prop where
  nodup : batch.Nodup
  mem_iff : ∀ item, item ∈ batch ↔ item ∈ items ∧ start ≤ position item ∧ position item < stop
  sorted : batch.Pairwise fun x y => position x ≤ position y

/-- The items below a frontier are known, each once and in order. -/
structure Collected (position : Item → Position) (items : List Item) (frontier : Position)
    (known : List Item) : Prop where
  nodup : known.Nodup
  mem_iff : ∀ item, item ∈ known ↔ item ∈ items ∧ position item < frontier
  sorted : known.Pairwise fun x y => position x ≤ position y

namespace Collected

variable {position : Item → Position} {items known batch : List Item}
  {frontier start stop : Position}

omit [DecidableEq Item] in
theorem nil (hlowest : ∀ item ∈ items, frontier ≤ position item) :
    Collected position items frontier [] where
  nodup := List.nodup_nil
  mem_iff := fun item => ⟨fun hmem => absurd hmem List.not_mem_nil,
    fun ⟨hmem, hlt⟩ => absurd hlt (hlowest item hmem).not_gt⟩
  sorted := List.Pairwise.nil

/-- A look-up that starts at or below the frontier moves it to its end. -/
theorem lookUp (hknown : Collected position items frontier known)
    (hbatch : LookUp position items start stop batch) (hstart : start ≤ frontier)
    (hstop : frontier ≤ stop) : Collected position items stop (batch.foldl append known) := by
  have hmem : ∀ item, item ∈ batch.filter (fun item => item ∉ known) ↔
      item ∈ items ∧ frontier ≤ position item ∧ position item < stop := by
    intro item
    rw [List.mem_filter, decide_eq_true_iff, hbatch.mem_iff, hknown.mem_iff]
    constructor
    · rintro ⟨⟨hitem, -, hlt⟩, hnew⟩
      exact ⟨hitem, not_lt.mp fun hbelow => hnew ⟨hitem, hbelow⟩, hlt⟩
    · rintro ⟨hitem, hle, hlt⟩
      exact ⟨⟨hitem, hstart.trans hle, hlt⟩, fun hold => hold.2.not_ge hle⟩
  rw [foldl_append hbatch.nodup]
  constructor
  · refine List.nodup_append.mpr ⟨hknown.nodup, hbatch.nodup.filter _, ?_⟩
    rintro x hx y hy rfl
    exact ((hknown.mem_iff x).mp hx).2.not_ge ((hmem x).mp hy).2.1
  · intro item
    rw [List.mem_append, hmem, hknown.mem_iff]
    constructor
    · rintro (⟨hitem, hlt⟩ | ⟨hitem, -, hlt⟩)
      · exact ⟨hitem, hlt.trans_le hstop⟩
      · exact ⟨hitem, hlt⟩
    · rintro ⟨hitem, hlt⟩
      rcases lt_or_ge (position item) frontier with hold | hnew
      · exact .inl ⟨hitem, hold⟩
      · exact .inr ⟨hitem, hnew, hlt⟩
  · refine List.pairwise_append.mpr ⟨hknown.sorted, hbatch.sorted.filter _, ?_⟩
    intro x hx y hy
    exact (((hknown.mem_iff x).mp hx).2.trans_le ((hmem y).mp hy).2.1).le

/-- An item below the frontier is known once. -/
theorem count_eq_one (hknown : Collected position items frontier known) {item : Item}
    (hitem : item ∈ items) (hlt : position item < frontier) : known.count item = 1 :=
  List.count_eq_one_of_mem hknown.nodup ((hknown.mem_iff item).mpr ⟨hitem, hlt⟩)

end Collected

end Foundation.Collecting
