import Mathlib.Logic.Basic

/-!
Programs that read a memory.  A program asks for the contents of one address after another, and
the answers decide what it asks for next and what it returns.
-/

namespace Mcsos.ReadPrograms

universe u v w

/-- A program with results in `α` for memories with addresses in `ι` and contents in `β`. -/
inductive Reading (ι : Type u) (β : Type v) (α : Type w) where
  | done (result : α)
  | read (addr : ι) (next : β → Reading ι β α)

variable {ι : Type u} {β : Type v} {α γ : Type w}

def Reading.bind : Reading ι β α → (α → Reading ι β γ) → Reading ι β γ
  | .done result, rest => rest result
  | .read addr next, rest => .read addr fun content => (next content).bind rest

instance : Monad (Reading ι β) where
  pure := .done
  bind := Reading.bind

/-- What the program returns on a memory. -/
def Reading.value (mem : ι → β) : Reading ι β α → α
  | .done result => result
  | .read addr next => (next (mem addr)).value mem

/-- The addresses that the program reads on a memory. -/
def Reading.reads (mem : ι → β) : Reading ι β α → List ι
  | .done _ => []
  | .read addr next => addr :: (next (mem addr)).reads mem

section Rules

variable {mem mem' : ι → β}

@[simp] theorem value_pure (result : α) : (pure result : Reading ι β α).value mem = result := rfl

@[simp] theorem reads_pure (result : α) : (pure result : Reading ι β α).reads mem = [] := rfl

@[simp] theorem value_bind (program : Reading ι β α) (rest : α → Reading ι β γ) :
    (program >>= rest).value mem = (rest (program.value mem)).value mem := by
  induction program with
  | done result => rfl
  | read addr next ih => exact ih (mem addr)

@[simp] theorem reads_bind (program : Reading ι β α) (rest : α → Reading ι β γ) :
    (program >>= rest).reads mem =
      program.reads mem ++ (rest (program.value mem)).reads mem := by
  induction program with
  | done result => rfl
  | read addr next ih => exact congrArg (addr :: ·) (ih (mem addr))

@[simp] theorem value_ite {c : Prop} [Decidable c] (first second : Reading ι β α) :
    (if c then first else second).value mem =
      if c then first.value mem else second.value mem :=
  apply_ite _ c first second

/-- A program cannot tell apart two memories with the same contents where it reads. -/
theorem Reading.value_congr {program : Reading ι β α}
    (h : ∀ addr ∈ program.reads mem, mem' addr = mem addr) :
    program.value mem' = program.value mem := by
  induction program with
  | done result => rfl
  | read addr next ih =>
      have hsame : mem' addr = mem addr := h addr List.mem_cons_self
      rw [value, value, hsame]
      exact ih _ fun addr' haddr' => h addr' (List.mem_cons_of_mem addr haddr')

/-- All addresses that the program reads satisfy a condition. -/
def Reading.Within (mem : ι → β) (P : ι → Prop) (program : Reading ι β α) : Prop :=
  ∀ addr ∈ program.reads mem, P addr

variable {P : ι → Prop}

theorem within_pure (result : α) : (pure result : Reading ι β α).Within mem P :=
  fun _ haddr => absurd haddr List.not_mem_nil

theorem within_bind {program : Reading ι β α} {rest : α → Reading ι β γ}
    (h : program.Within mem P) (hrest : (rest (program.value mem)).Within mem P) :
    (program >>= rest).Within mem P := by
  intro addr haddr
  rw [reads_bind] at haddr
  rcases List.mem_append.mp haddr with hfirst | hsecond
  · exact h addr hfirst
  · exact hrest addr hsecond

theorem within_ite {c : Prop} [Decidable c] {first second : Reading ι β α}
    (hfirst : c → first.Within mem P) (hsecond : ¬c → second.Within mem P) :
    (if c then first else second).Within mem P := by
  split
  case isTrue h => exact hfirst h
  case isFalse h => exact hsecond h

/-- A check on what has been read, and the rest of the program if it succeeds. -/
theorem within_check {program : Reading ι β α} {c : α → Prop} [DecidablePred c] {failed : α → γ}
    {rest : α → Reading ι β γ} (h : program.Within mem P)
    (hrest : ¬c (program.value mem) → (rest (program.value mem)).Within mem P) :
    (program >>= fun result => if c result then pure (failed result) else rest result).Within
      mem P :=
  within_bind h (within_ite (fun _ => within_pure _) hrest)

end Rules

end Mcsos.ReadPrograms
