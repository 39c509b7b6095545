import Mathlib.Data.List.Basic

/-!
A line of waiting items in front of one that has the turn.  Items join at the end of the line,
and the turn always goes to the first one; how long an item has to wait depends on nothing but
the items in front of it.
-/

namespace Mcsos.TurnQueue

universe u

structure Line (α : Type u) where
  current : α
  waiting : List α
deriving DecidableEq, Repr

/-- On `rotate` and `leave` the turn goes on; the item that had it goes to the end of the
line on `rotate`, unless it is the idle one. -/
inductive Move (α : Type u) where
  | rotate
  | leave
  | join (a : α)
  | stay
deriving DecidableEq, Repr

def Move.isTurn {α : Type u} : Move α → Bool
  | .rotate => true
  | .leave => true
  | .join _ => false
  | .stay => false

section Moves

variable {α : Type u} [DecidableEq α] {idle a : α} {s : Line α} {move : Move α} {i : Nat}

/-- The turn goes to the first item of the line, or to the idle one. -/
def Line.advance (idle : α) (s : Line α) (requeued : List α) : Line α :=
  match s.waiting with
  | [] => ⟨idle, requeued⟩
  | a :: rest => ⟨a, rest ++ requeued⟩

def Line.step (idle : α) (s : Line α) : Move α → Line α
  | .rotate => s.advance idle (if s.current = idle then [] else [s.current])
  | .leave => s.advance idle []
  | .join a => { s with waiting := s.waiting ++ [a] }
  | .stay => s

def Line.run (idle : α) (s : Line α) (moves : List (Move α)) : Line α :=
  moves.foldl (Line.step idle) s

/-- How often the turn goes on. -/
def turns (moves : List (Move α)) : Nat := moves.countP Move.isTurn

theorem Line.step_of_turn (idle : α) (s : Line α) (hmove : move.isTurn = true) :
    ∃ requeued, s.step idle move = s.advance idle requeued := by
  cases move with
  | rotate => exact ⟨_, rfl⟩
  | leave => exact ⟨_, rfl⟩
  | join a => cases hmove
  | stay => cases hmove

/-- The first item of the line gets the next turn. -/
theorem Line.current_step (ha : s.waiting[0]? = some a) (hmove : move.isTurn = true) :
    (s.step idle move).current = a := by
  obtain ⟨requeued, hstep⟩ := Line.step_of_turn idle s hmove
  rcases hwaiting : s.waiting with _ | ⟨b, rest⟩
  · rw [hwaiting] at ha
    cases ha
  · rw [hwaiting] at ha
    rw [hstep, Line.advance, hwaiting]
    exact Option.some.inj ha

/-- A turn brings every other item one step forward. -/
theorem Line.waiting_turn (ha : s.waiting[i + 1]? = some a) (hmove : move.isTurn = true) :
    (s.step idle move).waiting[i]? = some a := by
  obtain ⟨requeued, hstep⟩ := Line.step_of_turn idle s hmove
  rcases hwaiting : s.waiting with _ | ⟨b, rest⟩
  · rw [hwaiting] at ha
    cases ha
  · rw [hwaiting, List.getElem?_cons_succ] at ha
    rw [hstep, Line.advance, hwaiting]
    obtain ⟨hlt, -⟩ := List.getElem?_eq_some_iff.mp ha
    exact (List.getElem?_append_left hlt).trans ha

/-- Nothing else moves the items of the line. -/
theorem Line.waiting_rest (ha : s.waiting[i]? = some a) (hmove : move.isTurn = false) :
    (s.step idle move).waiting[i]? = some a := by
  cases move with
  | rotate => cases hmove
  | leave => cases hmove
  | join b =>
      obtain ⟨hlt, -⟩ := List.getElem?_eq_some_iff.mp ha
      exact (List.getElem?_append_left hlt).trans ha
  | stay => exact ha

theorem Line.waiting_run (idle : α) {moves : List (Move α)} (ha : s.waiting[i]? = some a)
    (hturns : turns moves ≤ i) : (s.run idle moves).waiting[i - turns moves]? = some a := by
  induction moves generalizing s i with
  | nil => exact ha
  | cons move moves ih =>
      rw [turns, List.countP_cons] at hturns ⊢
      rcases hmove : move.isTurn with _ | _
      · rw [hmove] at hturns
        exact ih (Line.waiting_rest ha hmove) hturns
      · rw [hmove, if_pos rfl] at hturns
        obtain ⟨j, rfl⟩ : ∃ j, i = j + 1 := ⟨i - 1, by omega⟩
        rw [if_pos rfl, Nat.add_sub_add_right]
        exact ih (Line.waiting_turn ha hmove) (Nat.le_of_add_le_add_right hturns)

end Moves

end Mcsos.TurnQueue
