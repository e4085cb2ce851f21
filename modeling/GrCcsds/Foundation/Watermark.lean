import Mathlib.Data.List.Nodup
import Mathlib.Data.List.Perm.Basic

/-! # Publication below a watermark

Keys wait until their position lies below a watermark that only rises. New keys
have a position at or above the watermark. Then no key is published twice, even
if it is generated again and again while it waits.
-/

namespace Foundation.Watermark

variable {Key : Type*} (position : Key → Nat)

/-- No key occurs twice, and the published keys lie below the watermark. -/
structure Once (watermark : Nat) (pending published : List Key) : Prop where
  nodup : (pending ++ published).Nodup
  below : ∀ key ∈ published, position key < watermark

namespace Once

variable {position} {watermark : Nat} {pending published : List Key}

theorem empty : Once position watermark [] [] := ⟨List.nodup_nil, nofun⟩

theorem pending_nodup (honce : Once position watermark pending published) : pending.Nodup :=
  (List.nodup_append.mp honce.nodup).1

theorem published_nodup (honce : Once position watermark pending published) :
    published.Nodup :=
  (List.nodup_append.mp honce.nodup).2.1

theorem raise {higher : Nat} (honce : Once position watermark pending published)
    (hle : watermark ≤ higher) : Once position higher pending published :=
  ⟨honce.nodup, fun key hkey => Nat.lt_of_lt_of_le (honce.below key hkey) hle⟩

theorem of_perm {reordered : List Key} (honce : Once position watermark pending published)
    (hperm : reordered.Perm pending) : Once position watermark reordered published :=
  ⟨(hperm.append_right published).nodup_iff.mpr honce.nodup, honce.below⟩

/-- A key at or above the watermark has not been published. -/
theorem add {key : Key} (honce : Once position watermark pending published)
    (hnew : key ∉ pending) (hposition : watermark ≤ position key) :
    Once position watermark (pending ++ [key]) published := by
  have hunpublished : key ∉ published := by
    intro hmem
    exact Nat.not_lt.mpr hposition (honce.below key hmem)
  refine ⟨?_, honce.below⟩
  have hperm : (pending ++ [key] ++ published).Perm (key :: (pending ++ published)) := by
    rw [List.append_assoc]
    exact List.perm_middle
  rw [hperm.nodup_iff, List.nodup_cons, List.mem_append]
  exact ⟨fun h => h.elim hnew hunpublished, honce.nodup⟩

/-- Publish some of the pending keys below the watermark. -/
theorem release {kept released : List Key} (honce : Once position watermark pending published)
    (hsplit : (released ++ kept).Perm pending)
    (hbelow : ∀ key ∈ released, position key < watermark) :
    Once position watermark kept (published ++ released) := by
  constructor
  · have hperm : (kept ++ (published ++ released)).Perm (pending ++ published) := by
      calc (kept ++ (published ++ released)).Perm ((published ++ released) ++ kept) :=
            List.perm_append_comm
        _ = published ++ (released ++ kept) := List.append_assoc ..
        List.Perm _ (published ++ pending) := hsplit.append_left published
        List.Perm _ (pending ++ published) := List.perm_append_comm
    exact hperm.nodup_iff.mpr honce.nodup
  · intro key hkey
    rcases List.mem_append.mp hkey with hold | hnew
    · exact honce.below key hold
    · exact hbelow key hnew

/-- Publish some of the pending keys wherever they lie, for the last time. -/
theorem published_append_nodup {released : List Key}
    (honce : Once position watermark pending published) (hsublist : released.Sublist pending) :
    (published ++ released).Nodup := by
  have hall : (published ++ pending).Nodup := List.perm_append_comm.nodup_iff.mpr honce.nodup
  exact hall.sublist (hsublist.append_left published)

end Once

/-- The keys of the results of a partial function that keeps keys. -/
theorem map_filterMap_sublist {α β : Type*} {f : α → Option β} {keyOf : α → Key}
    {keyOf' : β → Key} (hkey : ∀ a b, f a = some b → keyOf' b = keyOf a) (l : List α) :
    ((l.filterMap f).map keyOf').Sublist (l.map keyOf) := by
  induction l with
  | nil => exact List.Sublist.refl _
  | cons a rest ih =>
      rw [List.filterMap_cons]
      cases hf : f a with
      | none => exact ih.cons _
      | some b =>
          rw [List.map_cons, List.map_cons, hkey a b hf]
          exact ih.cons_cons _

section Order

variable {α : Type*} {released : α → Bool}

/-- Nothing is released before what comes first in the list, so that the released elements are
the begin of the list. -/
theorem filter_append_filter_not {elements : List α}
    (horder : elements.Pairwise fun first second => released second → released first) :
    elements.filter released ++ elements.filter (fun element => !released element) = elements := by
  induction elements with
  | nil => rfl
  | cons first rest ih =>
      obtain ⟨hfirst, hrest⟩ := List.pairwise_cons.mp horder
      cases hreleased : released first with
      | true =>
          rw [List.filter_cons_of_pos hreleased, List.filter_cons_of_neg (by simp [hreleased]),
            List.cons_append, ih hrest]
      | false =>
          have hnone : ∀ element ∈ rest, ¬ released element := by
            intro element hmem hlater
            exact absurd (hfirst element hmem hlater) (Bool.eq_false_iff.mp hreleased)
          rw [List.filter_cons_of_neg (by simp [hreleased]), List.filter_eq_nil_iff.mpr hnone,
            List.nil_append, List.filter_eq_self.mpr]
          rintro element hmem
          rcases List.mem_cons.mp hmem with rfl | hmem
          · rw [hreleased, Bool.not_false]
          · simpa using hnone element hmem

/-- Removing an element that a filter drops anyway. -/
theorem filter_eraseP {kept removed : α → Bool} {elements : List α}
    (hkept : ∀ element ∈ elements, kept element → ¬ removed element) :
    (elements.eraseP removed).filter kept = elements.filter kept := by
  induction elements with
  | nil => rfl
  | cons first rest ih =>
      obtain ⟨hfirst, hrest⟩ := List.forall_mem_cons.mp hkept
      by_cases hremoved : removed first
      · have hdropped : ¬ kept first := fun h => hfirst h hremoved
        rw [List.eraseP_cons_of_pos hremoved, List.filter_cons_of_neg hdropped]
      · rw [List.eraseP_cons_of_neg hremoved, List.filter_cons, List.filter_cons, ih hrest]

end Order

end Foundation.Watermark
