import Mcsos.AtomicObject
import Mcsos.SyncModel

namespace Mcsos.SpinlockLinear

open Mcsos.AtomicObject
open Mcsos.CallSystem
open Mcsos.Interleaving
open Mcsos.SyncModel

universe u

variable {ι : Type u}

/-- The lock as an object: its value tells whether it is taken. -/
def atomicSpinlock : Meaning ι SpinCall (Option Bool) Bool
  | _, .lock, taken => if taken then none else some (true, none)
  | _, .tryLock, taken => some (true, some !taken)
  | _, .unlock, _ => some (false, none)
  | _, .isLocked, taken => some (taken, some taken)

def visible : (ι × SpinAction) × SpinEvent → List (Event ι SpinCall (Option Bool))
  | ((i, .call call), _) => [.invoke i call]
  | ((i, .advance), some (call, result)) => [.respond i call result]
  | ((_, .advance), none) => []

def phaseOf : SpinPc → Phase SpinCall (Option Bool)
  | .outside => .idle
  | .lockExchange => .called .lock
  | .lockPoll => .called .lock
  | .tryLock => .called .tryLock
  | .unlock => .called .unlock
  | .isLocked => .called .isLocked

structure Represents (c : Config ι SpinPc UInt32) (o : State ι SpinCall (Option Bool) Bool) :
    Prop where
  value : o.value = mcsSpinIsLocked c.shared
  phase : o.phase = fun i => phaseOf (c.locals i)

variable {c : Config ι SpinPc UInt32} {i : ι} {o : State ι SpinCall (Option Bool) Bool}

theorem Represents.phase_self (h : Represents c o) : o.phase i = phaseOf (c.locals i) :=
  congrFun h.phase i

variable [DecidableEq ι] {pc : SpinPc} {locked : UInt32}

theorem Represents.move (h : Represents c o) (pc : SpinPc) (locked : UInt32) :
    Represents (c.move i pc locked)
      ⟨mcsSpinIsLocked locked, Function.update o.phase i (phaseOf pc)⟩ where
  value := rfl
  phase := by
    rw [h.phase]
    exact (Function.comp_update phaseOf c.locals i pc).symm

theorem Represents.invoke (h : Represents c o) (hpc : c.locals i = .outside) (call : SpinCall) :
    ∃ o', Execution atomicSpinlock o [.invoke i call] o' ∧
      Represents (c.move i call.entry c.shared) o' := by
  have hidle : o.phase i = .idle := by
    rw [h.phase_self, hpc, phaseOf]
  have hcalled : phaseOf call.entry = .called call := by cases call <;> rfl
  have hmoved := h.move (i := i) call.entry c.shared
  rw [← h.value, hcalled] at hmoved
  exact ⟨_, (Step.invoke call hidle).execution, hmoved⟩

theorem Represents.stutter (h : Represents c o)
    (hlocked : mcsSpinIsLocked locked = mcsSpinIsLocked c.shared)
    (hphase : phaseOf pc = phaseOf (c.locals i)) :
    ∃ o', Execution atomicSpinlock o [] o' ∧ Represents (c.move i pc locked) o' := by
  refine ⟨o, .nil o, ?_⟩
  have hmoved := h.move (i := i) pc locked
  rwa [hphase, ← h.phase_self, Function.update_eq_self, hlocked, ← h.value] at hmoved

theorem Represents.performAndRespond (h : Represents c o) {call : SpinCall}
    {result : Option Bool} (hcalled : phaseOf (c.locals i) = .called call)
    (happly : atomicSpinlock i call (mcsSpinIsLocked c.shared) =
      some (mcsSpinIsLocked locked, result)) :
    ∃ o', Execution atomicSpinlock o [.respond i call result] o' ∧
      Represents (c.move i .outside locked) o' := by
  rw [← h.value] at happly
  rw [← h.phase_self] at hcalled
  exact ⟨_, .performAndRespond hcalled happly, h.move .outside locked⟩

theorem Represents.advance (h : Represents c o) {next : SpinPc × UInt32 × SpinEvent}
    (hstep : spinStep (c.locals i) c.shared .advance = some next) :
    ∃ o', Execution atomicSpinlock o (visible ((i, .advance), next.2.2)) o' ∧
      Represents (c.move i next.1 next.2.1) o' := by
  cases hpc : c.locals i with
  | outside =>
      rw [hpc, spinStep] at hstep
      cases hstep
  | lockExchange =>
      rw [hpc, spinStep] at hstep
      by_cases hfree : c.shared = 0
      · simp only [mcsSpinTryLock, hfree, decide_true, if_true, Option.some.injEq] at hstep
        subst hstep
        refine h.performAndRespond (by rw [hpc, phaseOf]) ?_
        rw [hfree]
        rfl
      · -- The exchange finds the lock taken and leaves it so.
        simp only [mcsSpinTryLock, hfree, decide_false, Bool.false_eq_true, if_false,
          Option.some.injEq] at hstep
        subst hstep
        refine h.stutter ?_ (by rw [hpc, phaseOf, phaseOf])
        exact (bne_iff_ne.mpr hfree).symm
  | lockPoll =>
      rw [hpc, spinStep] at hstep
      cases hstep
      refine h.stutter rfl ?_
      rw [hpc]
      split <;> rfl
  | tryLock =>
      rw [hpc, spinStep] at hstep
      cases hstep
      refine h.performAndRespond (by rw [hpc, phaseOf]) ?_
      simp [atomicSpinlock, mcsSpinIsLocked, bne, beq_eq_decide]
  | unlock =>
      rw [hpc, spinStep] at hstep
      cases hstep
      exact h.performAndRespond (by rw [hpc, phaseOf]) rfl
  | isLocked =>
      rw [hpc, spinStep] at hstep
      cases hstep
      exact h.performAndRespond (by rw [hpc, phaseOf]) rfl

theorem Represents.step (h : Represents c o) {action : SpinAction}
    {next : SpinPc × UInt32 × SpinEvent}
    (hstep : spinStep (c.locals i) c.shared action = some next) :
    ∃ o', Execution atomicSpinlock o (visible ((i, action), next.2.2)) o' ∧
      Represents (c.move i next.1 next.2.1) o' := by
  cases action with
  | call call =>
      obtain ⟨hpc, hnext⟩ := Option.ite_none_right_eq_some.mp hstep
      cases hnext
      exact h.invoke hpc call
  | advance => exact h.advance hstep

/-- Whatever the interleaving, the calls and returns that the callers see are those of a
flag on which every call takes effect at once; `mcs_spin_lock` does so only while the flag
is clear. -/
theorem run_atomicSpinlock {trace : List ((ι × SpinAction) × SpinEvent)}
    (hrun : Run (spinSystem ι) (spinStart ι) trace c) :
    Linearizable atomicSpinlock false (trace.flatMap visible) := by
  refine linearizable_of_simulation visible Represents ?_ ⟨rfl, rfl⟩ hrun
  rintro c o ⟨i, action⟩ c' event h - hstep
  obtain ⟨pc, locked, hnext, rfl⟩ := interleave_step hstep
  exact h.step hnext

/-- The second caller polls until the first one unlocks. -/
def handoverMoves : List (Bool × SpinAction) :=
  [(true, .call .lock), (true, .advance), (false, .call .lock), (false, .advance),
    (false, .advance), (true, .call .unlock), (true, .advance), (false, .advance),
    (false, .advance)]

def handoverConfig : Config Bool SpinPc UInt32 :=
  handoverMoves.foldl (fun c move => (((spinSystem Bool).step c move).map Prod.fst).getD c)
    (spinStart Bool)

theorem run_handoverConfig :
    Run (spinSystem Bool) (spinStart Bool)
      (handoverMoves.zip [none, some (.lock, none), none, none, none, none,
        some (.unlock, none), none, some (.lock, none)]) handoverConfig := by
  refine .cons trivial rfl (.cons trivial rfl (.cons trivial rfl (.cons trivial rfl ?_)))
  refine .cons trivial rfl (.cons trivial rfl (.cons trivial rfl (.cons trivial rfl ?_)))
  exact .cons trivial rfl (.nil _)

theorem run_atomicSpinlock_handoverConfig :
    Linearizable atomicSpinlock false
      ([.invoke true .lock, .respond true .lock none, .invoke false .lock,
        .invoke true .unlock, .respond true .unlock none, .respond false .lock none] :
        List (Event Bool SpinCall (Option Bool))) :=
  run_atomicSpinlock run_handoverConfig

end Mcsos.SpinlockLinear
