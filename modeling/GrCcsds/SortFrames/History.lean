import GrCcsds.SortFrames.Block
import Mathlib.Data.List.Induction

/-! # Arrivals of frames and the messages they lead to

A history lists the PDUs that enter the window, each with its frame number and
whether a newer frame had been seen before it. The published messages are a
function of the history alone: one group of PDUs for every frame number that
the window has left, then one group for every number still inside.
-/

namespace GrCcsds.SortFrames

variable {Score Data : Type}

/-- The frame number of a PDU that has every configured header field. -/
def sortKey (cfg : Config) (pdu : Pdu Score Data) : Option Nat :=
  if (getFrameScore cfg pdu).isNone && cfg.hasScoreField then none else getFrameNumber pdu

/-- A PDU inside the window at its arrival. It is late if a newer frame number
has been seen before. -/
structure Arrival (Score Data : Type) where
  number : Nat
  late : Bool
  pdu : Pdu Score Data

/-- The newest frame number after a PDU. -/
def newestAfter (cfg : Config) (newest : Nat) (pdu : Pdu Score Data) : Nat :=
  match sortKey cfg pdu with
  | none => newest
  | some number => max newest number

/-- The newest frame number after a sequence of PDUs. -/
def newestOf (cfg : Config) (pdus : List (Pdu Score Data)) : Nat :=
  pdus.foldl (newestAfter cfg) 0

def arrival (cfg : Config) (newest : Nat) (pdu : Pdu Score Data) :
    Option (Arrival Score Data) :=
  match sortKey cfg pdu with
  | none => none
  | some number =>
    if number + cfg.window ≤ newest then none
    else some { number := number, late := decide (number < newest), pdu := pdu }

def arrivalsFrom (cfg : Config) : Nat → List (Pdu Score Data) → List (Arrival Score Data)
  | _, [] => []
  | newest, pdu :: rest =>
    (arrival cfg newest pdu).toList ++ arrivalsFrom cfg (newestAfter cfg newest pdu) rest

/-- The arrivals of a stream of PDUs that starts with an empty window. -/
def arrivals (cfg : Config) (pdus : List (Pdu Score Data)) : List (Arrival Score Data) :=
  arrivalsFrom cfg 0 pdus

/-- The PDUs of one frame number, in arrival order. -/
def ofNumber (history : List (Arrival Score Data)) (number : Nat) : List (Pdu Score Data) :=
  (history.filter fun a => a.number = number).map Arrival.pdu

/-- The PDUs of one frame number that arrive before any newer frame. -/
def onTime (history : List (Arrival Score Data)) (number : Nat) : List (Pdu Score Data) :=
  (history.filter fun a => a.number = number ∧ a.late = false).map Arrival.pdu

/-- The PDUs of one frame number that arrive after a newer frame. -/
def tardy (history : List (Arrival Score Data)) (number : Nat) : List (Pdu Score Data) :=
  (history.filter fun a => a.number = number ∧ a.late = true).map Arrival.pdu

/-- The PDUs of one frame number that its slot still represents once the newest
number is known. Those that came on time have been sent when the window moved
past a number that is not below the window size. -/
def held (cfg : Config) (history : List (Arrival Score Data)) (newest number : Nat) :
    List (Pdu Score Data) :=
  (history.filter fun a =>
    a.number = number ∧ (number = newest ∨ number < cfg.window ∨ a.late = true)).map Arrival.pdu

variable {cfg : Config}

theorem mem_ofNumber {history : List (Arrival Score Data)} {number : Nat}
    {pdu : Pdu Score Data} :
    pdu ∈ ofNumber history number ↔ ∃ a ∈ history, a.number = number ∧ a.pdu = pdu := by
  simp only [ofNumber, List.mem_map, List.mem_filter, decide_eq_true_eq, and_assoc]

theorem held_eq_filter_append (history : List (Arrival Score Data)) (a : Arrival Score Data)
    (newest number : Nat) :
    held cfg (history ++ [a]) newest number = held cfg history newest number ++
      if a.number = number ∧ (number = newest ∨ number < cfg.window ∨ a.late = true) then
        [a.pdu] else [] := by
  simp only [held, List.filter_append, List.map_append]
  congr 1
  by_cases hcond : a.number = number ∧
      (number = newest ∨ number < cfg.window ∨ a.late = true) <;> simp [List.filter, hcond]

theorem onTime_append_singleton (history : List (Arrival Score Data))
    (a : Arrival Score Data) (number : Nat) :
    onTime (history ++ [a]) number = onTime history number ++
      if a.number = number ∧ a.late = false then [a.pdu] else [] := by
  simp only [onTime, List.filter_append, List.map_append]
  congr 1
  by_cases hcond : a.number = number ∧ a.late = false <;> simp [List.filter, hcond]

/-- A PDU keeps its frame number through the history. -/
theorem arrival_number {newest : Nat} {pdu : Pdu Score Data} {a : Arrival Score Data}
    (harrival : arrival cfg newest pdu = some a) :
    a.pdu = pdu ∧ getFrameNumber pdu = some a.number ∧
      newest < a.number + cfg.window ∧ a.late = decide (a.number < newest) := by
  unfold arrival at harrival
  split at harrival
  · cases harrival
  next number hkey =>
    split at harrival
    · cases harrival
    next hwindow =>
      cases harrival
      refine ⟨rfl, ?_, by simpa using hwindow, rfl⟩
      unfold sortKey at hkey
      split at hkey
      · cases hkey
      · exact hkey

/-- A number of which no copy has one lateness has all its copies with the
other. -/
theorem ofNumber_eq_of_filter_eq_nil {history : List (Arrival Score Data)} {number : Nat}
    {late : Bool}
    (hnone : (history.filter fun a => a.number = number ∧ a.late = !late) = []) :
    ofNumber history number =
      (history.filter fun a => a.number = number ∧ a.late = late).map Arrival.pdu := by
  unfold ofNumber
  congr 1
  apply List.filter_congr
  intro a ha
  have hnot := List.filter_eq_nil_iff.mp hnone a ha
  rw [decide_eq_true_eq, not_and, Bool.not_eq_not] at hnot
  rw [decide_eq_decide]
  constructor
  · intro hnumber
    exact ⟨hnumber, hnot hnumber⟩
  · intro hboth
    exact hboth.1

/-- Without late copies all copies of a number came on time. -/
theorem ofNumber_eq_of_tardy_eq_nil {history : List (Arrival Score Data)} {number : Nat}
    (htardy : tardy history number = []) : ofNumber history number = onTime history number :=
  ofNumber_eq_of_filter_eq_nil (List.map_eq_nil_iff.mp htardy)

/-- Without copies on time all copies of a number are late. -/
theorem ofNumber_eq_of_onTime_eq_nil {history : List (Arrival Score Data)} {number : Nat}
    (hontime : onTime history number = []) :
    ofNumber history number = tardy history number :=
  ofNumber_eq_of_filter_eq_nil (List.map_eq_nil_iff.mp hontime)

/-- The slot of the newest number and those below the window size still
represent all their copies. -/
theorem held_eq_ofNumber {history : List (Arrival Score Data)} {newest number : Nat}
    (hkept : number = newest ∨ number < cfg.window) :
    held cfg history newest number = ofNumber history number := by
  unfold held ofNumber
  congr 1
  apply List.filter_congr
  intro a _
  rw [decide_eq_decide, and_iff_left_iff_imp]
  intro _
  exact hkept.imp_right Or.inl

/-- Any other slot only represents the late copies. -/
theorem held_eq_tardy {history : List (Arrival Score Data)} {newest number : Nat}
    (hbelow : number ≠ newest) (hlarge : cfg.window ≤ number) :
    held cfg history newest number = tardy history number := by
  unfold held tardy
  congr 1
  apply List.filter_congr
  intro a _
  rw [decide_eq_decide]
  apply and_congr_right
  intro _
  constructor
  · intro hcases
    exact (hcases.resolve_left hbelow).resolve_left (Nat.not_lt.mpr hlarge)
  · intro hlate
    exact Or.inr (Or.inr hlate)

section Selection

variable [Zero Score] [LT Score] [DecidableLT Score]

/-- A slot after the given duplicates have been stored in it. -/
def collect (cfg : Config) (pdus : List (Pdu Score Data)) : FrameDuplicates Score Data :=
  pdus.foldl (addDuplicate cfg) .empty

/-- The PDUs of a slot that remain of the given duplicates. -/
def select (cfg : Config) (pdus : List (Pdu Score Data)) : List (Pdu Score Data) :=
  (collect cfg pdus).frames

/-- The PDUs sent while the window moves up to its newest number. -/
def sentByAdvance (cfg : Config) (history : List (Arrival Score Data)) (newest : Nat) :
    List (Pdu Score Data) :=
  (List.range' cfg.window (newest - cfg.window)).flatMap fun number =>
    select cfg (onTime history number)

/-- The PDUs sent when the window is flushed. -/
def sentByFlush (cfg : Config) (history : List (Arrival Score Data)) (newest : Nat) :
    List (Pdu Score Data) :=
  (List.range' (newest + 1 - cfg.window) (newest + 1 - (newest + 1 - cfg.window))).flatMap
    fun number => select cfg (held cfg history newest number)

@[simp] theorem select_nil : select cfg ([] : List (Pdu Score Data)) = [] := rfl

theorem collect_append_singleton (pdus : List (Pdu Score Data)) (pdu : Pdu Score Data) :
    collect cfg (pdus ++ [pdu]) = addDuplicate cfg (collect cfg pdus) pdu := by
  simp only [collect, List.foldl_append, List.foldl_cons, List.foldl_nil]

theorem addDuplicate_frames_ne_nil (dups : FrameDuplicates Score Data)
    (pdu : Pdu Score Data) : (addDuplicate cfg dups pdu).frames ≠ [] := by
  unfold addDuplicate
  split
  · simp
  next hempty =>
    have hne : dups.frames ≠ [] := by simpa using hempty
    split
    · simp
    · split
      · simpa using hne
      · exact hne

/-- A slot is empty exactly when nothing has been stored in it. -/
@[simp] theorem select_eq_nil_iff (pdus : List (Pdu Score Data)) :
    select cfg pdus = [] ↔ pdus = [] := by
  constructor
  · intro hselect
    cases pdus using List.reverseRecOn with
    | nil => rfl
    | append_singleton front pdu =>
        rw [select, collect_append_singleton] at hselect
        exact absurd hselect (addDuplicate_frames_ne_nil _ _)
  · rintro rfl
    rfl

/-- Every frame of a slot after storing a PDU is that PDU or was there before. -/
theorem mem_addDuplicate {dups : FrameDuplicates Score Data} {pdu stored : Pdu Score Data}
    (hmem : stored ∈ (addDuplicate cfg dups pdu).frames) :
    stored ∈ dups.frames ∨ stored = pdu := by
  unfold addDuplicate at hmem
  split at hmem
  · simpa using hmem
  · split at hmem
    · simpa using hmem
    · split at hmem
      · exact List.mem_or_eq_of_mem_set hmem
      · exact Or.inl hmem

/-- A slot only holds PDUs that were stored in it. -/
theorem mem_of_mem_select {pdus : List (Pdu Score Data)} {pdu : Pdu Score Data}
    (hmem : pdu ∈ select cfg pdus) : pdu ∈ pdus := by
  induction pdus using List.reverseRecOn with
  | nil => simp at hmem
  | append_singleton front last ih =>
      rw [select, collect_append_singleton] at hmem
      rcases mem_addDuplicate hmem with hfront | hlast
      · exact List.mem_append_left _ (ih hfront)
      · simp [hlast]

end Selection

end GrCcsds.SortFrames
