import GrCcsds.Foundation.Transition
import Mathlib.Algebra.Order.Group.Nat
import Mathlib.Tactic.Common

/-! # While loops with fuel

A loop that may run forever is a function of its fuel. It ends with a result if
every amount of fuel from some amount on gives this result.
-/

namespace Foundation.WhileLoop

variable {σ α β : Type*}

/-- `while (test s) s = body s`. Without fuel the loop has not ended. -/
def whileLoop (test : σ → Bool) (body : σ → σ) : Nat → σ → Option σ
  | 0, _ => none
  | fuel + 1, s => if test s then whileLoop test body fuel (body s) else some s

/-- Enough fuel gives a result. -/
def Ends (f : Nat → Option α) (result : α) : Prop := ∃ fuel, ∀ more ≥ fuel, f more = some result

theorem Ends.of_some (result : α) : Ends (fun _ => some result) result := ⟨0, fun _ _ => rfl⟩

theorem Ends.bind {f : Nat → Option α} {g : Nat → α → Option β} {x : α} {y : β} (hf : Ends f x)
    (hg : Ends (fun fuel => g fuel x) y) : Ends (fun fuel => (f fuel).bind (g fuel)) y := by
  obtain ⟨first, hfirst⟩ := hf
  obtain ⟨second, hsecond⟩ := hg
  refine ⟨max first second, fun more hmore => ?_⟩
  simp [hfirst more (le_of_max_le_left hmore), hsecond more (le_of_max_le_right hmore)]

theorem Ends.map {f : Nat → Option α} {x : α} (hf : Ends f x) (g : α → β) :
    Ends (fun fuel => (f fuel).map g) (g x) := by
  obtain ⟨fuel, hfuel⟩ := hf
  exact ⟨fuel, fun more hmore => by simp [hfuel more hmore]⟩

/-- Where every step ends and keeps an invariant of the labels so far, so does every run. -/
theorem exists_ends_run {Label : Type*} {step : Nat → σ → Label → Option σ}
    (inv : List Label → σ → Prop)
    (hstep : ∀ past s label, inv past s →
      ∃ next, Ends (fun fuel => step fuel s label) next ∧ inv (past ++ [label]) next)
    (labels : List Label) {s : σ} (hstart : inv [] s) :
    ∃ last, Ends (fun fuel => Transition.run (step fuel) s labels) last ∧ inv labels last := by
  suffices hfrom : ∀ past s, inv past s → ∃ last,
      Ends (fun fuel => Transition.run (step fuel) s labels) last ∧ inv (past ++ labels) last by
    exact hfrom [] s hstart
  clear hstart
  induction labels with
  | nil =>
      intro past s hs
      exact ⟨s, .of_some s, by rwa [List.append_nil]⟩
  | cons label rest ih =>
      intro past s hs
      obtain ⟨next, hnext, hinv⟩ := hstep past s label hs
      obtain ⟨last, hlast, hinvLast⟩ := ih _ next hinv
      rw [List.append_assoc] at hinvLast
      exact ⟨last, hnext.bind hlast, hinvLast⟩

variable {test : σ → Bool} {body : σ → σ} {s last : σ}

theorem ends_of_not (htest : test s = false) :
    Ends (fun fuel => whileLoop test body fuel s) s := by
  refine ⟨1, fun more hmore => ?_⟩
  obtain ⟨fuel, rfl⟩ := Nat.exists_eq_add_of_le' hmore
  simp [whileLoop, htest]

theorem ends_of_body (htest : test s = true)
    (hrest : Ends (fun fuel => whileLoop test body fuel (body s)) last) :
    Ends (fun fuel => whileLoop test body fuel s) last := by
  obtain ⟨enough, henough⟩ := hrest
  refine ⟨enough + 1, fun more hmore => ?_⟩
  obtain ⟨fuel, rfl⟩ := Nat.exists_eq_add_of_le' (Nat.le_trans (Nat.le_add_left 1 enough) hmore)
  simp [whileLoop, htest, henough fuel (Nat.le_of_succ_le_succ hmore)]

end Foundation.WhileLoop
