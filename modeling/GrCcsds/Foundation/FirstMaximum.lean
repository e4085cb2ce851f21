import Mathlib.Order.Lattice
import Mathlib.Tactic.Common

/-! # Scanning for the first maximum

A scan keeps a candidate when its score exceeds the best one so far. It may stop
at a score that no candidate can exceed: the result is the first candidate with
the largest score, as without stopping.
-/

namespace Foundation.FirstMaximum

variable {α β S : Type*} [LinearOrder S]

/-- The best score and what is recorded for its candidate. -/
def scan (score : α → S) (record : α → β) (bound : S) : List α → S × β → S × β
  | [], best => best
  | c :: rest, best =>
    if best.1 < score c then
      if bound ≤ score c then (score c, record c)
      else scan score record bound rest (score c, record c)
    else scan score record bound rest best

/-- The candidates that a scan looks at. -/
def visited (score : α → S) (bound : S) : List α → S → List α
  | [], _ => []
  | c :: rest, best =>
    c ::
      if best < score c then
        if bound ≤ score c then [] else visited score bound rest (score c)
      else visited score bound rest best

variable {score : α → S} {record : α → β} {bound : S} {candidates : List α}

/-- The best score never gets worse. -/
theorem le_scan (best : S × β) : best.1 ≤ (scan score record bound candidates best).1 := by
  induction candidates generalizing best with
  | nil => exact le_refl _
  | cons c rest ih =>
      rw [scan]
      split
      next hbetter =>
        split
        · exact hbetter.le
        · exact hbetter.le.trans (ih (score c, record c))
      next => exact ih best

/-- Without a better candidate the scan changes nothing. -/
theorem scan_eq_self {best : S × β} (hnone : ∀ c ∈ candidates, score c ≤ best.1) :
    scan score record bound candidates best = best := by
  induction candidates with
  | nil => rfl
  | cons c rest ih =>
      rw [scan, if_neg (not_lt_of_ge (hnone c List.mem_cons_self))]
      exact ih fun x hx => hnone x (List.mem_cons_of_mem _ hx)

/-- No candidate exceeds the result, stopped or not. -/
theorem score_le_scan (hbound : ∀ c ∈ candidates, score c ≤ bound) (best : S × β) :
    ∀ c ∈ candidates, score c ≤ (scan score record bound candidates best).1 := by
  induction candidates generalizing best with
  | nil => exact nofun
  | cons c rest ih =>
      have hrest : ∀ x ∈ rest, score x ≤ bound := fun x hx => hbound x (List.mem_cons_of_mem _ hx)
      intro x hx
      rw [scan]
      split
      next hbetter =>
        split
        next hstop => exact (hbound x hx).trans hstop
        next =>
          rcases List.mem_cons.mp hx with rfl | hx
          · exact le_scan (score x, record x)
          · exact ih hrest _ x hx
      next hworse =>
        rcases List.mem_cons.mp hx with rfl | hx
        · exact (le_of_not_gt hworse).trans (le_scan best)
        · exact ih hrest _ x hx

/-- The result is the first of the candidates with its score. -/
theorem scan_first [Preorder α] (record : α → β) (bound : S)
    (hsorted : candidates.Pairwise fun x y => x < y) (best : S × β)
    (hbetter : ∃ c ∈ candidates, best.1 < score c) :
    ∃ c ∈ candidates, scan score record bound candidates best = (score c, record c) ∧
      best.1 < score c ∧ ∀ x ∈ candidates, x < c → score x < score c := by
  induction candidates generalizing best with
  | nil =>
      obtain ⟨c, hc, -⟩ := hbetter
      exact absurd hc List.not_mem_nil
  | cons c rest ih =>
      obtain ⟨hafter, hrest⟩ := List.pairwise_cons.mp hsorted
      have hfirst : ∀ x ∈ c :: rest, x < c → score x < score c := by
        intro x hx hlt
        rcases List.mem_cons.mp hx with rfl | hx
        · exact absurd hlt (lt_irrefl x)
        · exact absurd (hlt.trans (hafter x hx)) (lt_irrefl x)
      rw [scan]
      split
      next hc =>
        split
        next => exact ⟨c, List.mem_cons_self, rfl, hc, hfirst⟩
        next =>
          by_cases hlater : ∃ d ∈ rest, score c < score d
          · obtain ⟨d, hd, hscan, hgreater, hbefore⟩ := ih hrest (score c, record c) hlater
            refine ⟨d, List.mem_cons_of_mem _ hd, hscan, hc.trans hgreater, ?_⟩
            intro x hx hlt
            rcases List.mem_cons.mp hx with rfl | hx
            · exact hgreater
            · exact hbefore x hx hlt
          · have hnone : ∀ d ∈ rest, score d ≤ score c :=
              fun d hd => le_of_not_gt fun hlt => hlater ⟨d, hd, hlt⟩
            exact ⟨c, List.mem_cons_self, scan_eq_self hnone, hc, hfirst⟩
      next hc =>
        obtain ⟨d, hd, hgreater⟩ := hbetter
        rcases List.mem_cons.mp hd with rfl | hd
        · exact absurd hgreater hc
        · obtain ⟨e, he, hscan, hbest, hbefore⟩ := ih hrest best ⟨d, hd, hgreater⟩
          refine ⟨e, List.mem_cons_of_mem _ he, hscan, hbest, ?_⟩
          intro x hx hlt
          rcases List.mem_cons.mp hx with rfl | hx
          · exact lt_of_le_of_lt (le_of_not_gt hc) hbest
          · exact hbefore x hx hlt

/-- A scan that stays below the bound looks at every candidate. -/
theorem visited_eq {best : S × β} (hbelow : (scan score record bound candidates best).1 < bound) :
    visited score bound candidates best.1 = candidates := by
  induction candidates generalizing best with
  | nil => rfl
  | cons c rest ih =>
      rw [scan] at hbelow
      rw [visited]
      split at hbelow
      next hbetter =>
        rw [if_pos hbetter]
        split at hbelow
        next hstop => exact absurd hstop (not_le_of_gt hbelow)
        next hcontinue =>
          rw [if_neg hcontinue]
          exact congrArg _ (ih hbelow)
      next hworse =>
        rw [if_neg hworse]
        exact congrArg _ (ih hbelow)

end Foundation.FirstMaximum
