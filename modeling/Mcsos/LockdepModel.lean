import Mathlib.Logic.Function.Basic

/-!
The lock-order checker of `mcsos/kernel/sync/lockdep.c`.  A state is passed by
value, so the refusal of a null state pointer has no counterpart.
-/

namespace Mcsos.LockdepModel

def mcsLockdepMaxHeld : Nat := 16

/-- The return codes of `mcs_sync.h` that the checker uses. -/
inductive McsSync where
  | ok
  | einval
  | eperm
  | edeadlk
  | eoverflow
deriving DecidableEq, Repr

/-- `mcs_lockdep_state_t`.  The arrays have `MCS_LOCKDEP_MAX_HELD` slots. -/
structure McsLockdepState where
  heldClass : Nat → UInt32
  heldName : Nat → Option String
  depth : Nat
  violationCount : UInt32

/-- `mcs_lockdep_init`: the slots below `MCS_LOCKDEP_MAX_HELD` are cleared. -/
def mcsLockdepInit (state : McsLockdepState) : McsLockdepState where
  heldClass i := if i < mcsLockdepMaxHeld then 0 else state.heldClass i
  heldName i := if i < mcsLockdepMaxHeld then none else state.heldName i
  depth := 0
  violationCount := 0

/-- The loop that looks for `class_id` among the first `count` slots. -/
def scanHeld (heldClass : Nat → UInt32) (classId : UInt32) : Nat → Bool
  | 0 => false
  | count + 1 => scanHeld heldClass classId count || heldClass count == classId

def mcsLockdepIsHeld (state : McsLockdepState) (classId : UInt32) : Bool :=
  if classId = 0 then false
  else scanHeld state.heldClass classId (min state.depth mcsLockdepMaxHeld)

def McsLockdepState.violation (state : McsLockdepState) : McsLockdepState :=
  { state with violationCount := state.violationCount + 1 }

def mcsLockdepBeforeAcquire (state : McsLockdepState) (classId : UInt32) (name : Option String) :
    McsLockdepState × McsSync :=
  if classId = 0 then (state, .einval)
  else if mcsLockdepMaxHeld ≤ state.depth then (state.violation, .eoverflow)
  else if scanHeld state.heldClass classId state.depth then (state.violation, .edeadlk)
  else if 0 < state.depth ∧ classId < state.heldClass (state.depth - 1) then
    (state.violation, .edeadlk)
  else
    ({ state with
        heldClass := Function.update state.heldClass state.depth classId
        heldName := Function.update state.heldName state.depth name
        depth := state.depth + 1 }, .ok)

def mcsLockdepAfterRelease (state : McsLockdepState) (classId : UInt32) :
    McsLockdepState × McsSync :=
  if classId = 0 then (state, .einval)
  else if state.depth = 0 then (state.violation, .eperm)
  else if state.heldClass (state.depth - 1) ≠ classId then (state.violation, .edeadlk)
  else
    ({ state with
        heldClass := Function.update state.heldClass (state.depth - 1) 0
        heldName := Function.update state.heldName (state.depth - 1) none
        depth := state.depth - 1 }, .ok)

end Mcsos.LockdepModel
