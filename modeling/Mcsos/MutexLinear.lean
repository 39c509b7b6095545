import Mcsos.AtomicObject
import Mcsos.MutexExclusion

/-!
The mutex behaves like one whose operations happen at a single point.  A try-lock takes
effect at its compare-and-exchange, also when that fails, and an unlock at its load of
the owner word when it is refused and at its last store when it is not.
-/

namespace Mcsos.MutexLinear

open Mcsos.AtomicObject
open Mcsos.CallSystem
open Mcsos.Interleaving
open Mcsos.MutexExclusion
open Mcsos.SyncModel

universe u

variable {ι : Type u}

/-- The mutex as an object: its value is the client that holds it. -/
def atomicMutex [DecidableEq ι] : Meaning ι MutexCall McsSyncResult (Option ι)
  | i, .tryLock, none => some (some i, .ok)
  | i, .tryLock, some j => some (some j, if j = i then .edeadlk else .ebusy)
  | i, .unlock, holder => if holder = some i then some (none, .ok) else some (holder, .eperm)

/-- What is seen of a step: the start of a call, or its return. -/
def visible : (ι × MutexAction) × MutexEvent → List (Event ι MutexCall McsSyncResult)
  | ((i, .call call), _) => [.invoke i call]
  | ((i, .advance), some (call, result)) => [.respond i call result]
  | ((_, .advance), none) => []

/-- How far the operation of a client is.  Behind a failed compare-and-exchange the
result is settled, since the client itself cannot take or release the mutex before it
returns. -/
def phaseOf (client : MutexClient) : Phase MutexCall McsSyncResult :=
  match client.pc with
  | .outside => .idle
  | .tryLock .entry => .called .tryLock
  | .tryLock .compareExchange => .called .tryLock
  | .tryLock .loadOwner => .done .tryLock (if client.holding then .edeadlk else .ebusy)
  | .tryLock .storeOwner => .done .tryLock .ok
  | .unlock _ => .called .unlock

def phases (c : Config ι MutexClient McsMutex) (i : ι) : Phase MutexCall McsSyncResult :=
  phaseOf (c.locals i)

structure Represents (ownerId : ι → UInt64) (c : Config ι MutexClient McsMutex)
    (o : State ι MutexCall McsSyncResult (Option ι)) : Prop where
  inv : MutexInv ownerId c
  holder : ∀ i, o.value = some i ↔ (c.locals i).holding = true
  phase : o.phase = phases c

variable {ownerId : ι → UInt64} {c : Config ι MutexClient McsMutex} {i : ι}
  {o : State ι MutexCall McsSyncResult (Option ι)}

theorem represents_mutexStart (hnonzero : ∀ i, ownerId i ≠ 0) :
    Represents ownerId (mutexStart ι) ⟨none, fun _ => .idle⟩ where
  inv := mutexInv_mutexStart hnonzero
  holder i := by simp [mutexStart]
  phase := rfl

theorem Represents.phase_self (h : Represents ownerId c o) :
    o.phase i = phaseOf (c.locals i) :=
  congrFun h.phase i

theorem Represents.owner_iff (h : Represents ownerId c o)
    (hstore : (c.locals i).pc ≠ .tryLock .storeOwner)
    (hclear : (c.locals i).pc ≠ .unlock .clearLocked) :
    c.shared.owner = ownerId i ↔ (c.locals i).holding = true := by
  rw [h.inv.owner_iff i]
  exact ⟨fun hrecorded => hrecorded.1, fun hholding => ⟨hholding, hstore, hclear⟩⟩

section Steps

variable [DecidableEq ι] {client : MutexClient} {mutex : McsMutex}

theorem phases_move (c : Config ι MutexClient McsMutex) (i : ι) (client : MutexClient)
    (mutex : McsMutex) :
    phases (c.move i client mutex) = Function.update (phases c) i (phaseOf client) :=
  Function.comp_update ..

theorem Represents.move (h : Represents ownerId c o)
    (hinv : MutexInv ownerId (c.move i client mutex)) {holder : Option ι}
    (hself : holder = some i ↔ client.holding = true)
    (hother : ∀ j, j ≠ i → (holder = some j ↔ o.value = some j)) :
    Represents ownerId (c.move i client mutex)
      ⟨holder, Function.update o.phase i (phaseOf client)⟩ where
  inv := hinv
  holder := forall_move (fun j client => holder = some j ↔ client.holding = true) c hself
    fun j hne => (hother j hne).trans (h.holder j)
  phase := by rw [phases_move, h.phase]

theorem Represents.moveOn (h : Represents ownerId c o)
    (hinv : MutexInv ownerId (c.move i client mutex))
    (hholding : client.holding = (c.locals i).holding) :
    Represents ownerId (c.move i client mutex)
      ⟨o.value, Function.update o.phase i (phaseOf client)⟩ :=
  h.move hinv (by rw [hholding, h.holder i]) fun _ _ => Iff.rfl

theorem Represents.stutter (h : Represents ownerId c o)
    (hinv : MutexInv ownerId (c.move i client mutex))
    (hholding : client.holding = (c.locals i).holding)
    (hphase : phaseOf client = phaseOf (c.locals i)) :
    ∃ o', Execution atomicMutex o [] o' ∧ Represents ownerId (c.move i client mutex) o' := by
  refine ⟨o, .nil o, ?_⟩
  have hmoved := h.moveOn hinv hholding
  rwa [hphase, ← h.phase_self, Function.update_eq_self] at hmoved

theorem Represents.perform (h : Represents ownerId c o)
    (hinv : MutexInv ownerId (c.move i client mutex)) {call : MutexCall} (holder : Option ι)
    (result : McsSyncResult) (hcalled : o.phase i = .called call)
    (happly : atomicMutex i call o.value = some (holder, result))
    (hphase : phaseOf client = .done call result)
    (hself : holder = some i ↔ client.holding = true)
    (hother : ∀ j, j ≠ i → (holder = some j ↔ o.value = some j)) :
    ∃ o', Execution atomicMutex o [] o' ∧ Represents ownerId (c.move i client mutex) o' := by
  have hmoved := h.move hinv hself hother
  rw [hphase] at hmoved
  exact ⟨_, (Step.perform hcalled happly).execution, hmoved⟩

theorem Represents.respond (h : Represents ownerId c o)
    (hinv : MutexInv ownerId (c.move i client mutex)) {call : MutexCall} {result : McsSyncResult}
    (hdone : o.phase i = .done call result) (hphase : phaseOf client = .idle)
    (hholding : client.holding = (c.locals i).holding) :
    ∃ o', Execution atomicMutex o [.respond i call result] o' ∧
      Represents ownerId (c.move i client mutex) o' := by
  have hmoved := h.moveOn hinv hholding
  rw [hphase] at hmoved
  exact ⟨_, (Step.respond hdone).execution, hmoved⟩

theorem Represents.performAndRespond (h : Represents ownerId c o)
    (hinv : MutexInv ownerId (c.move i client mutex)) {call : MutexCall} (holder : Option ι)
    (result : McsSyncResult) (hcalled : o.phase i = .called call)
    (happly : atomicMutex i call o.value = some (holder, result))
    (hphase : phaseOf client = .idle) (hself : holder = some i ↔ client.holding = true)
    (hother : ∀ j, j ≠ i → (holder = some j ↔ o.value = some j)) :
    ∃ o', Execution atomicMutex o [.respond i call result] o' ∧
      Represents ownerId (c.move i client mutex) o' := by
  have hmoved := h.move hinv hself hother
  rw [hphase] at hmoved
  exact ⟨_, .performAndRespond hcalled happly, hmoved⟩

theorem Represents.invoke (h : Represents ownerId c o) {call : MutexCall} {pc : MutexPc}
    (hinv : MutexInv ownerId (c.move i ⟨pc, (c.locals i).holding⟩ c.shared))
    (hpc : (c.locals i).pc = .outside)
    (hphase : phaseOf ⟨pc, (c.locals i).holding⟩ = .called call) :
    ∃ o', Execution atomicMutex o [.invoke i call] o' ∧
      Represents ownerId (c.move i ⟨pc, (c.locals i).holding⟩ c.shared) o' := by
  have hidle : o.phase i = .idle := by
    rw [h.phase_self, phaseOf, hpc]
  have hmoved := h.moveOn hinv rfl
  rw [hphase] at hmoved
  exact ⟨_, (Step.invoke call hidle).execution, hmoved⟩

theorem Represents.tryLock (h : Represents ownerId c o) (hnonzero : ∀ i, ownerId i ≠ 0)
    {pc : TryLockPc} (hpc : (c.locals i).pc = .tryLock pc)
    {next : MutexClient × McsMutex × MutexEvent}
    (hstep : mutexStep (ownerId i) (c.locals i) c.shared .advance = some next)
    (hinv : MutexInv ownerId (c.move i next.1 next.2.1)) :
    ∃ o', Execution atomicMutex o (visible ((i, .advance), next.2.2)) o' ∧
      Represents ownerId (c.move i next.1 next.2.1) o' := by
  have hphase : o.phase i = phaseOf (c.locals i) := h.phase_self
  rw [phaseOf, hpc] at hphase
  simp only [mutexStep, hpc, Option.some.injEq] at hstep
  subst hstep
  cases pc with
  | entry =>
      rw [mcsMutexTryLock, if_neg (hnonzero i)] at hinv ⊢
      refine h.stutter hinv ?_ ?_
      · simp [resume]
      · simp [resume, phaseOf, hpc]
  | compareExchange =>
      rw [mcsMutexTryLock] at hinv ⊢
      by_cases hfree : c.shared.locked = 0
      · -- Nobody holds the mutex, so the operation takes effect with success.
        have hnone : o.value = none := by
          refine Option.eq_none_iff_forall_ne_some.mpr fun j hj => ?_
          exact h.inv.token.free (not_not.mpr hfree) j ((h.holder j).mp hj)
        rw [if_pos hfree] at hinv ⊢
        refine h.perform hinv (some i) .ok hphase ?_ rfl ?_ ?_
        · rw [hnone]
          rfl
        · simp [resume, hfree]
        · intro j hne
          simp [hnone, hne.symm]
      · -- Somebody holds it, and this client knows whether it is the one.
        obtain ⟨j, hj⟩ := h.inv.token.taken_iff.mp hfree
        have hvalue : o.value = some j := (h.holder j).mpr hj
        have hself : j = i ↔ (c.locals i).holding = true := by
          rw [← h.holder i, hvalue, Option.some_inj]
        rw [if_neg hfree] at hinv ⊢
        refine h.perform hinv o.value (if (c.locals i).holding then .edeadlk else .ebusy)
          hphase ?_ ?_ ?_ fun _ _ => Iff.rfl
        · rw [hvalue, atomicMutex]
          simp only [hself]
        · simp [resume, phaseOf, hfree]
        · rw [h.holder i]
          simp [resume, hfree]
  | loadOwner =>
      have howner := h.owner_iff (i := i) (by simp [hpc]) (by simp [hpc])
      rw [mcsMutexTryLock] at hinv ⊢
      by_cases hself : c.shared.owner = ownerId i
      · rw [if_pos (howner.mp hself)] at hphase
        rw [if_pos hself] at hinv ⊢
        refine h.respond hinv hphase rfl ?_
        simp [resume]
      · rw [if_neg fun hholding => hself (howner.mpr hholding)] at hphase
        rw [if_neg hself] at hinv ⊢
        refine h.respond hinv hphase rfl ?_
        simp [resume]
  | storeOwner =>
      refine h.respond hinv hphase rfl ?_
      simp [resume, mcsMutexTryLock]

theorem Represents.unlock (h : Represents ownerId c o) (hnonzero : ∀ i, ownerId i ≠ 0)
    {pc : UnlockPc} (hpc : (c.locals i).pc = .unlock pc)
    {next : MutexClient × McsMutex × MutexEvent}
    (hstep : mutexStep (ownerId i) (c.locals i) c.shared .advance = some next)
    (hinv : MutexInv ownerId (c.move i next.1 next.2.1)) :
    ∃ o', Execution atomicMutex o (visible ((i, .advance), next.2.2)) o' ∧
      Represents ownerId (c.move i next.1 next.2.1) o' := by
  have hphase : o.phase i = phaseOf (c.locals i) := h.phase_self
  rw [phaseOf, hpc] at hphase
  simp only [mutexStep, hpc, Option.some.injEq] at hstep
  subst hstep
  cases pc with
  | entry =>
      rw [mcsMutexUnlock, if_neg (hnonzero i)] at hinv ⊢
      refine h.stutter hinv ?_ ?_
      · simp [resume]
      · simp [resume, phaseOf, hpc]
  | loadOwner =>
      have howner := h.owner_iff (i := i) (by simp [hpc]) (by simp [hpc])
      rw [mcsMutexUnlock] at hinv ⊢
      by_cases hself : c.shared.owner = ownerId i
      · rw [if_neg (not_not.mpr hself)] at hinv ⊢
        refine h.stutter hinv ?_ ?_
        · simp [resume]
        · simp [resume, phaseOf, hpc]
      · have hother : ¬o.value = some i := fun hvalue =>
          hself (howner.mpr ((h.holder i).mp hvalue))
        rw [if_pos hself] at hinv ⊢
        refine h.performAndRespond hinv o.value .eperm hphase ?_ rfl ?_ fun _ _ => Iff.rfl
        · rw [atomicMutex, if_neg hother]
        · rw [h.holder i]
          simp [resume]
  | clearOwner =>
      rw [mcsMutexUnlock] at hinv ⊢
      refine h.stutter hinv ?_ ?_
      · simp [resume]
      · simp [resume, phaseOf, hpc]
  | clearLocked =>
      have hvalue : o.value = some i := (h.holder i).mpr (h.inv.entitled i (.inr (.inr hpc)))
      rw [mcsMutexUnlock] at hinv ⊢
      refine h.performAndRespond hinv none .ok hphase ?_ rfl ?_ ?_
      · rw [atomicMutex, if_pos hvalue]
      · simp [resume]
      · intro j hne
        simp [hvalue, hne.symm]

theorem Represents.step (h : Represents ownerId c o) (hinj : Function.Injective ownerId)
    (hnonzero : ∀ i, ownerId i ≠ 0) {action : MutexAction}
    {next : MutexClient × McsMutex × MutexEvent}
    (hstep : mutexStep (ownerId i) (c.locals i) c.shared action = some next) :
    ∃ o', Execution atomicMutex o (visible ((i, action), next.2.2)) o' ∧
      Represents ownerId (c.move i next.1 next.2.1) o' := by
  have hinv := h.inv.step hinj hnonzero hstep
  cases action with
  | call call =>
      cases call with
      | tryLock =>
          obtain ⟨hpc, hnext⟩ := Option.ite_none_right_eq_some.mp hstep
          cases hnext
          exact h.invoke hinv hpc rfl
      | unlock =>
          obtain ⟨hpc, hnext⟩ := Option.ite_none_right_eq_some.mp hstep
          cases hnext
          exact h.invoke hinv hpc rfl
  | advance =>
      cases hpc : (c.locals i).pc with
      | outside => simp [mutexStep, hpc] at hstep
      | tryLock pc => exact h.tryLock hnonzero hpc hstep hinv
      | unlock pc => exact h.unlock hnonzero hpc hstep hinv

/-- Whatever the interleaving, the calls and returns that the clients see are those of a
mutex on which every call takes effect at once, at some point between its start and its
return. -/
theorem run_linearizable (hinj : Function.Injective ownerId) (hnonzero : ∀ i, ownerId i ≠ 0)
    {trace : List ((ι × MutexAction) × MutexEvent)}
    (hrun : Run (mutexSystem ownerId) (mutexStart ι) trace c) :
    Linearizable atomicMutex none (trace.flatMap visible) := by
  refine linearizable_of_simulation visible (Represents ownerId) ?_
    (represents_mutexStart hnonzero) hrun
  rintro c o ⟨i, action⟩ c' event h - hstep
  obtain ⟨client, mutex, hnext, rfl⟩ := interleave_step hstep
  exact h.step hinj hnonzero hnext

/-- The second client tries to take the mutex while the first one is between the two
stores of its unlock, and is told that it is busy after that unlock has returned. -/
def overlapMoves : List (Bool × MutexAction) :=
  [(true, .call .tryLock), (true, .advance), (true, .advance), (true, .advance),
    (true, .call .unlock), (true, .advance), (true, .advance), (true, .advance),
    (false, .call .tryLock), (false, .advance), (false, .advance),
    (true, .advance), (false, .advance)]

def overlapConfig : Config Bool MutexClient McsMutex :=
  overlapMoves.foldl (fun c move => (((mutexSystem twoIds).step c move).map Prod.fst).getD c)
    (mutexStart Bool)

theorem run_overlapConfig :
    Run (mutexSystem twoIds) (mutexStart Bool)
      (overlapMoves.zip [none, none, none, some (.tryLock, .ok), none, none, none, none, none,
        none, none, some (.unlock, .ok), some (.tryLock, .ebusy)]) overlapConfig := by
  refine .cons trivial rfl (.cons trivial rfl (.cons trivial rfl (.cons trivial rfl ?_)))
  refine .cons trivial rfl (.cons trivial rfl (.cons trivial rfl (.cons trivial rfl ?_)))
  refine .cons trivial rfl (.cons trivial rfl (.cons trivial rfl ?_))
  exact .cons trivial rfl (.cons trivial rfl (.nil _))

theorem run_linearizable_overlapConfig :
    Linearizable atomicMutex none
      ([.invoke true .tryLock, .respond true .tryLock .ok, .invoke true .unlock,
        .invoke false .tryLock, .respond true .unlock .ok, .respond false .tryLock .ebusy] :
        List (Event Bool MutexCall McsSyncResult)) :=
  run_linearizable twoIds_injective (by decide) run_overlapConfig

end Steps

end Mcsos.MutexLinear
