import Mcsos.SyncModel

namespace Mcsos.MutexExclusion

open Mcsos.CallSystem
open Mcsos.Interleaving
open Mcsos.SyncModel

universe u

variable {ι : Type u} {ownerId : ι → UInt64} {c : Config ι MutexClient McsMutex} {i : ι}

/-- A client that holds the mutex, outside the two windows. -/
def Recorded (client : MutexClient) : Prop :=
  client.holding = true ∧ client.pc ≠ .tryLock .storeOwner ∧ client.pc ≠ .unlock .clearLocked

/-- A client that is about to store to the mutex holds it. -/
def Entitled (client : MutexClient) : Prop :=
  client.pc = .tryLock .storeOwner ∨ client.pc = .unlock .clearOwner ∨
    client.pc = .unlock .clearLocked → client.holding = true

structure MutexInv (ownerId : ι → UInt64) (c : Config ι MutexClient McsMutex) : Prop where
  token : Token (fun client => client.holding = true) (fun mutex => mutex.locked ≠ 0) c
  entitled : ∀ i, Entitled (c.locals i)
  owner_iff : ∀ i, c.shared.owner = ownerId i ↔ Recorded (c.locals i)

theorem mutexInv_mutexStart (hnonzero : ∀ i, ownerId i ≠ 0) :
    MutexInv ownerId (mutexStart ι) where
  token := token_of_free (fun i => by simp [mutexStart]) (by simp [mutexStart, mcsMutexInit])
  entitled i := by simp [mutexStart, Entitled]
  owner_iff i := by
    refine iff_of_false (hnonzero i).symm ?_
    simp [mutexStart, Recorded]

theorem MutexInv.owner_other (h : MutexInv ownerId c) (hholding : (c.locals i).holding = true)
    {j : ι} (hne : j ≠ i) : c.shared.owner ≠ ownerId j := by
  intro howner
  exact hne (h.token.unique j i ((h.owner_iff j).mp howner).1 hholding)

section Steps

variable [DecidableEq ι]

theorem MutexInv.move (h : MutexInv ownerId c) {client : MutexClient} {mutex : McsMutex}
    (htoken : TokenStep (fun client : MutexClient => client.holding = true)
      (fun mutex : McsMutex => mutex.locked ≠ 0) (c.locals i) c.shared client mutex)
    (hentitled : Entitled client) (hself : mutex.owner = ownerId i ↔ Recorded client)
    (hother : ∀ j, j ≠ i → (mutex.owner = ownerId j ↔ c.shared.owner = ownerId j)) :
    MutexInv ownerId (c.move i client mutex) where
  token := h.token.step htoken
  entitled := forall_move (fun _ client => Entitled client) c hentitled fun j _ => h.entitled j
  owner_iff := forall_move (fun j client => mutex.owner = ownerId j ↔ Recorded client) c hself
    fun j hne => (hother j hne).trans (h.owner_iff j)

theorem MutexInv.moveOn (h : MutexInv ownerId c) (pc : MutexPc)
    (hfrom : (c.locals i).pc ≠ .tryLock .storeOwner ∧ (c.locals i).pc ≠ .unlock .clearLocked)
    (hto : pc ≠ .tryLock .storeOwner ∧ pc ≠ .unlock .clearOwner ∧ pc ≠ .unlock .clearLocked) :
    MutexInv ownerId (c.move i ⟨pc, (c.locals i).holding⟩ c.shared) := by
  refine h.move (.inr (.inr ⟨Iff.rfl, Iff.rfl⟩)) ?_ ?_ fun j _ => Iff.rfl
  · rintro (heq | heq | heq)
    · exact absurd heq hto.1
    · exact absurd heq hto.2.1
    · exact absurd heq hto.2.2
  · rw [h.owner_iff i]
    simp [Recorded, hfrom, hto]

theorem MutexInv.tryLock (h : MutexInv ownerId c) (hinj : Function.Injective ownerId)
    {pc : TryLockPc} (hpc : (c.locals i).pc = .tryLock pc)
    {next : MutexClient × McsMutex × MutexEvent}
    (hstep : mutexStep (ownerId i) (c.locals i) c.shared .advance = some next) :
    MutexInv ownerId (c.move i next.1 next.2.1) := by
  simp only [mutexStep, hpc, Option.some.injEq] at hstep
  subst hstep
  cases pc with
  | entry =>
      simp only [mcsMutexTryLock]
      split
      · simpa [resume] using h.moveOn .outside (by simp [hpc]) (by simp)
      · simpa [resume] using h.moveOn (.tryLock .compareExchange) (by simp [hpc]) (by simp)
  | compareExchange =>
      simp only [mcsMutexTryLock]
      split
      case isTrue hfree =>
        have hnobody := h.token.free (not_not.mpr hfree)
        refine h.move (.inl ⟨not_not.mpr hfree, ?_, ?_⟩) ?_ ?_ fun j _ => Iff.rfl
        · simp [resume, hfree]
        · simp [resume]
        · intro _
          simp [resume, hfree]
        · refine iff_of_false ?_ (by simp [resume, Recorded])
          exact fun howner => hnobody i ((h.owner_iff i).mp howner).1
      case isFalse hheld =>
        simpa [resume, hheld] using h.moveOn (.tryLock .loadOwner) (by simp [hpc]) (by simp)
  | loadOwner =>
      simp only [mcsMutexTryLock]
      split
      · simpa [resume] using h.moveOn .outside (by simp [hpc]) (by simp)
      · simpa [resume] using h.moveOn .outside (by simp [hpc]) (by simp)
  | storeOwner =>
      have hholding : (c.locals i).holding = true := h.entitled i (.inl hpc)
      refine h.move (.inr (.inr ⟨by simp [resume, mcsMutexTryLock], Iff.rfl⟩)) ?_ ?_ ?_
      · simp [resume, mcsMutexTryLock, Entitled]
      · exact iff_of_true rfl (by simp [resume, mcsMutexTryLock, Recorded, hholding])
      · intro j hne
        exact iff_of_false (fun heq => hne (hinj heq).symm) (h.owner_other hholding hne)

theorem MutexInv.unlock (h : MutexInv ownerId c) (hnonzero : ∀ i, ownerId i ≠ 0)
    {pc : UnlockPc} (hpc : (c.locals i).pc = .unlock pc)
    {next : MutexClient × McsMutex × MutexEvent}
    (hstep : mutexStep (ownerId i) (c.locals i) c.shared .advance = some next) :
    MutexInv ownerId (c.move i next.1 next.2.1) := by
  simp only [mutexStep, hpc, Option.some.injEq] at hstep
  subst hstep
  cases pc with
  | entry =>
      simp only [mcsMutexUnlock]
      split
      · simpa [resume] using h.moveOn .outside (by simp [hpc]) (by simp)
      · simpa [resume] using h.moveOn (.unlock .loadOwner) (by simp [hpc]) (by simp)
  | loadOwner =>
      simp only [mcsMutexUnlock]
      split
      · simpa [resume] using h.moveOn .outside (by simp [hpc]) (by simp)
      case isFalse howner =>
        -- The word names this client, which therefore holds the mutex.
        rw [not_not] at howner
        have hholding := ((h.owner_iff i).mp howner).1
        refine h.move (.inr (.inr ⟨by simp [resume], Iff.rfl⟩)) ?_ ?_ fun j _ => Iff.rfl
        · intro _
          simp [resume, hholding]
        · exact iff_of_true howner (by simp [resume, Recorded, hholding])
  | clearOwner =>
      have hholding : (c.locals i).holding = true := h.entitled i (.inr (.inl hpc))
      refine h.move (.inr (.inr ⟨by simp [resume, mcsMutexUnlock], Iff.rfl⟩)) ?_ ?_ ?_
      · intro _
        simp [resume, mcsMutexUnlock, hholding]
      · exact iff_of_false (hnonzero i).symm (by simp [resume, mcsMutexUnlock, Recorded])
      · intro j hne
        exact iff_of_false (hnonzero j).symm (h.owner_other hholding hne)
  | clearLocked =>
      have hholding : (c.locals i).holding = true := h.entitled i (.inr (.inr hpc))
      refine h.move (.inr (.inl ⟨hholding, ?_, ?_⟩)) ?_ ?_ fun j _ => Iff.rfl
      · simp [resume, mcsMutexUnlock]
      · simp [resume, mcsMutexUnlock]
      · simp [resume, mcsMutexUnlock, Entitled]
      · refine iff_of_false ?_ (by simp [resume, mcsMutexUnlock, Recorded])
        exact fun howner => ((h.owner_iff i).mp howner).2.2 hpc

theorem MutexInv.step (h : MutexInv ownerId c) (hinj : Function.Injective ownerId)
    (hnonzero : ∀ i, ownerId i ≠ 0) {action : MutexAction}
    {next : MutexClient × McsMutex × MutexEvent}
    (hstep : mutexStep (ownerId i) (c.locals i) c.shared action = some next) :
    MutexInv ownerId (c.move i next.1 next.2.1) := by
  have hcalled : ∀ {pc : MutexPc}, (c.locals i).pc = .outside →
      pc ≠ .tryLock .storeOwner ∧ pc ≠ .unlock .clearOwner ∧ pc ≠ .unlock .clearLocked →
      MutexInv ownerId (c.move i ⟨pc, (c.locals i).holding⟩ c.shared) := fun hpc hto =>
    h.moveOn _ (by simp [hpc]) hto
  cases action with
  | call call =>
      cases call with
      | tryLock =>
          obtain ⟨hpc, hnext⟩ := Option.ite_none_right_eq_some.mp hstep
          cases hnext
          exact hcalled hpc (by simp)
      | unlock =>
          obtain ⟨hpc, hnext⟩ := Option.ite_none_right_eq_some.mp hstep
          cases hnext
          exact hcalled hpc (by simp)
  | advance =>
      cases hpc : (c.locals i).pc with
      | outside => simp [mutexStep, hpc] at hstep
      | tryLock pc => exact h.tryLock hinj hpc hstep
      | unlock pc => exact h.unlock hnonzero hpc hstep

end Steps

theorem resume_returned {Pc : Type} {call call' : MutexCall} {inside : Pc → MutexPc}
    {holding : Bool} {next : McsMutex × Progress Pc} {result : McsSyncResult}
    (h : (resume call inside holding next).2.2 = some (call', result)) :
    call = call' ∧ next.2 = .returned result := by
  obtain ⟨mutex, pc | result'⟩ := next
  · cases h
  · cases h
    exact ⟨rfl, rfl⟩

theorem mutexStep_returned {id : UInt64} {client : MutexClient} {mutex : McsMutex}
    {action : MutexAction} {next : MutexClient × McsMutex × MutexEvent} {call : MutexCall}
    {result : McsSyncResult} (hstep : mutexStep id client mutex action = some next)
    (hevent : next.2.2 = some (call, result)) :
    (∃ pc, call = .tryLock ∧ client.pc = .tryLock pc ∧
        (mcsMutexTryLock id mutex pc).2 = .returned result) ∨
      ∃ pc, call = .unlock ∧ client.pc = .unlock pc ∧
        (mcsMutexUnlock id mutex pc).2 = .returned result := by
  cases action with
  | call start =>
      cases start with
      | tryLock =>
          obtain ⟨-, hnext⟩ := Option.ite_none_right_eq_some.mp hstep
          cases hnext
          cases hevent
      | unlock =>
          obtain ⟨-, hnext⟩ := Option.ite_none_right_eq_some.mp hstep
          cases hnext
          cases hevent
  | advance =>
      cases hpc : client.pc with
      | outside => simp [mutexStep, hpc] at hstep
      | tryLock pc =>
          simp only [mutexStep, hpc, Option.some.injEq] at hstep
          subst hstep
          obtain ⟨rfl, hresult⟩ := resume_returned hevent
          exact .inl ⟨pc, rfl, rfl, hresult⟩
      | unlock pc =>
          simp only [mutexStep, hpc, Option.some.injEq] at hstep
          subst hstep
          obtain ⟨rfl, hresult⟩ := resume_returned hevent
          exact .inr ⟨pc, rfl, rfl, hresult⟩

theorem mcsMutexUnlock_returned {id : UInt64} {mutex : McsMutex} {pc : UnlockPc}
    {result : McsSyncResult} (hid : id ≠ 0)
    (h : (mcsMutexUnlock id mutex pc).2 = .returned result) :
    pc = .clearLocked ∧ result = .ok ∨
      pc = .loadOwner ∧ mutex.owner ≠ id ∧ result = .eperm := by
  cases pc with
  | entry => simp [mcsMutexUnlock, hid] at h
  | loadOwner =>
      rw [mcsMutexUnlock] at h
      split at h
      case isTrue howner =>
        cases h
        exact .inr ⟨rfl, howner, rfl⟩
      case isFalse => cases h
  | clearOwner => cases h
  | clearLocked =>
      cases h
      exact .inl ⟨rfl, rfl⟩

theorem mcsMutexTryLock_returned {id : UInt64} {mutex : McsMutex} {pc : TryLockPc}
    {result : McsSyncResult} (hid : id ≠ 0)
    (h : (mcsMutexTryLock id mutex pc).2 = .returned result) :
    pc = .storeOwner ∧ result = .ok ∨
      pc = .loadOwner ∧
        (mutex.owner = id ∧ result = .edeadlk ∨ mutex.owner ≠ id ∧ result = .ebusy) := by
  cases pc with
  | entry => simp [mcsMutexTryLock, hid] at h
  | compareExchange =>
      rw [mcsMutexTryLock] at h
      split at h
      · cases h
      · cases h
  | loadOwner =>
      rw [mcsMutexTryLock] at h
      split at h
      case isTrue howner =>
        cases h
        exact .inr ⟨rfl, .inl ⟨howner, rfl⟩⟩
      case isFalse howner =>
        cases h
        exact .inr ⟨rfl, .inr ⟨howner, rfl⟩⟩
  | storeOwner =>
      cases h
      exact .inl ⟨rfl, rfl⟩

/-- The result of a call tells whether the client held the mutex when the call
returned: the holder cannot be refused an unlock, and nobody else can be granted one. -/
theorem MutexInv.result (h : MutexInv ownerId c) (hnonzero : ∀ i, ownerId i ≠ 0)
    {action : MutexAction} {next : MutexClient × McsMutex × MutexEvent} {call : MutexCall}
    {result : McsSyncResult}
    (hstep : mutexStep (ownerId i) (c.locals i) c.shared action = some next)
    (hevent : next.2.2 = some (call, result)) :
    (c.locals i).holding = true ↔ result = .ok ∨ result = .edeadlk := by
  rcases mutexStep_returned hstep hevent with ⟨pc, rfl, hpc, hreturned⟩ | ⟨pc, rfl, hpc, hreturned⟩
  · rcases mcsMutexTryLock_returned (hnonzero i) hreturned with
      ⟨rfl, rfl⟩ | ⟨rfl, ⟨howner, rfl⟩ | ⟨howner, rfl⟩⟩
    · exact iff_of_true (h.entitled i (.inl hpc)) (.inl rfl)
    · exact iff_of_true ((h.owner_iff i).mp howner).1 (.inr rfl)
    · rw [ne_eq, h.owner_iff i] at howner
      exact iff_of_false (fun hholding => howner (by simp [Recorded, hholding, hpc])) (by simp)
  · rcases mcsMutexUnlock_returned (hnonzero i) hreturned with ⟨rfl, rfl⟩ | ⟨rfl, howner, rfl⟩
    · exact iff_of_true (h.entitled i (.inr (.inr hpc))) (.inl rfl)
    · rw [ne_eq, h.owner_iff i] at howner
      exact iff_of_false (fun hholding => howner (by simp [Recorded, hholding, hpc])) (by simp)

section Runs

variable [DecidableEq ι] {trace : List ((ι × MutexAction) × MutexEvent)}

theorem mutexInv_run (hinj : Function.Injective ownerId) (hnonzero : ∀ i, ownerId i ≠ 0)
    (hrun : Run (mutexSystem ownerId) (mutexStart ι) trace c) : MutexInv ownerId c := by
  refine hrun.invariant (MutexInv ownerId) ?_ (mutexInv_mutexStart hnonzero)
  rintro c ⟨i, action⟩ c' event h - hstep
  obtain ⟨client, mutex, hnext, rfl⟩ := interleave_step hstep
  exact h.step hinj hnonzero hnext

/-- In every state at most one client is between a successful compare-and-exchange and
its store that clears `locked`; `mcs_mutex_unlock` returns `MCS_SYNC_OK`, and
`mcs_mutex_try_lock` returns `MCS_SYNC_EDEADLK`, to that client only. -/
theorem run_mutualExclusion (hinj : Function.Injective ownerId) (hnonzero : ∀ i, ownerId i ≠ 0)
    (hrun : Run (mutexSystem ownerId) (mutexStart ι) trace c) :
    (∀ i j, (c.locals i).holding = true → (c.locals j).holding = true → i = j) ∧
      ∀ i action c' event, (mutexSystem ownerId).step c (i, action) = some (c', event) →
        event = some (.unlock, .ok) ∨ event = some (.tryLock, .edeadlk) →
        (c.locals i).holding = true := by
  have h := mutexInv_run hinj hnonzero hrun
  refine ⟨h.token.unique, fun i action c' event hstep hevent => ?_⟩
  obtain ⟨client, mutex, hnext, -⟩ := interleave_step hstep
  rcases hevent with rfl | rfl
  · exact (h.result hnonzero hnext rfl).mpr (.inl rfl)
  · exact (h.result hnonzero hnext rfl).mpr (.inr rfl)

/-- Two clients with the ids `1` and `2`. -/
def twoIds (i : Bool) : UInt64 := if i then 1 else 2

/-- The first client takes the mutex, the second one is refused to release it, and the
first one tries to take it again. -/
def retryMoves : List (Bool × MutexAction) :=
  [(true, .call .tryLock), (true, .advance), (true, .advance), (true, .advance),
    (false, .call .unlock), (false, .advance), (false, .advance),
    (true, .call .tryLock), (true, .advance), (true, .advance)]

def retryConfig : Config Bool MutexClient McsMutex :=
  retryMoves.foldl (fun c move => (((mutexSystem twoIds).step c move).map Prod.fst).getD c)
    (mutexStart Bool)

theorem run_retryConfig :
    Run (mutexSystem twoIds) (mutexStart Bool)
      (retryMoves.zip [none, none, none, some (.tryLock, .ok), none, none,
        some (.unlock, .eperm), none, none, none]) retryConfig := by
  refine .cons trivial rfl (.cons trivial rfl (.cons trivial rfl (.cons trivial rfl ?_)))
  refine .cons trivial rfl (.cons trivial rfl (.cons trivial rfl ?_))
  exact .cons trivial rfl (.cons trivial rfl (.cons trivial rfl (.nil _)))

theorem twoIds_injective : Function.Injective twoIds := by
  unfold Function.Injective
  decide

theorem run_mutualExclusion_retryConfig :
    ∃ c', (mutexSystem twoIds).step retryConfig (true, .advance) =
        some (c', some (.tryLock, .edeadlk)) ∧
      (retryConfig.locals true).holding = true :=
  ⟨_, rfl, (run_mutualExclusion twoIds_injective (by decide) run_retryConfig).2 true .advance
    _ _ rfl (.inr rfl)⟩

end Runs

end Mcsos.MutexExclusion
