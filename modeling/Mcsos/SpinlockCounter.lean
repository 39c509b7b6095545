import Mcsos.SyncModel

namespace Mcsos.SpinlockCounter

open Mcsos.CallSystem
open Mcsos.Interleaving
open Mcsos.SyncModel

universe u

/-- The thread is between an exchange that took the lock and its store that releases
it. -/
def Critical (worker : Worker) : Prop :=
  match worker.pc with
  | .tryLock => False
  | .poll => False
  | .loadCounter => True
  | .storeCounter _ => True
  | .unlock => True

/-- The increments that the thread has still to store. -/
def owed (worker : Worker) : Nat :=
  match worker.pc with
  | .unlock => worker.remaining - 1
  | _ => worker.remaining

/-- The steps that a thread makes at most while no other thread gets in its way. -/
def work (worker : Worker) : Nat :=
  5 * worker.remaining +
    match worker.pc with
    | .poll => 4
    | .tryLock => 3
    | .loadCounter => 2
    | .storeCounter _ => 1
    | .unlock => 0

theorem workerStep_free {g : SpinShared} {worker : Worker} (hfree : g.locked = 0)
    (hout : ¬Critical worker) (hleft : ¬worker.Finished) :
    ∃ next, workerStep g worker = some next ∧ work next.1 < work worker := by
  obtain ⟨pc, k⟩ := worker
  cases pc with
  | tryLock =>
      rcases k with _ | k
      · exact absurd rfl hleft
      · exact ⟨_, rfl, by simp [work, hfree]⟩
  | poll => exact ⟨_, rfl, by simp [work, hfree]⟩
  | loadCounter => exact absurd trivial hout
  | storeCounter loaded => exact absurd trivial hout
  | unlock => exact absurd trivial hout

theorem workerStep_critical {g : SpinShared} {worker : Worker} (hin : Critical worker)
    (hpos : 0 < worker.remaining) :
    ∃ next, workerStep g worker = some next ∧ work next.1 < work worker := by
  obtain ⟨pc, k⟩ := worker
  cases pc with
  | tryLock => exact hin.elim
  | poll => exact hin.elim
  | loadCounter => exact ⟨_, rfl, by simp [work]⟩
  | storeCounter loaded => exact ⟨_, rfl, by simp [work]⟩
  | unlock =>
      refine ⟨_, rfl, ?_⟩
      simp only [work] at hpos ⊢
      omega

variable {ι : Type u} {iterations : ι → Nat} {initial : UInt64} {i : ι}
  {c : Config ι Worker SpinShared}

section Counting

variable [Fintype ι]

structure SpinInv (iterations : ι → Nat) (initial : UInt64) (c : Config ι Worker SpinShared) :
    Prop where
  token : Token Critical (fun g => g.locked ≠ 0) c
  busy : ∀ i, (c.locals i).pc ≠ .tryLock → 0 < (c.locals i).remaining
  loaded : ∀ i value, (c.locals i).pc = .storeCounter value → value = c.shared.counter
  stored : ∃ done, c.shared.counter = initial + UInt64.ofNat done ∧
    done + ∑ i, owed (c.locals i) = ∑ i, iterations i

theorem spinInv_workerStart : SpinInv iterations initial (workerStart iterations initial) where
  token := token_of_free (fun i => by simp [workerStart, Critical]) (by simp [workerStart])
  busy i hpc := absurd rfl hpc
  loaded i value hpc := by cases hpc
  stored := ⟨0, by simp [workerStart], by simp [workerStart, owed]⟩

variable [DecidableEq ι]

theorem SpinInv.move (h : SpinInv iterations initial c) {worker : Worker} {g : SpinShared}
    (htoken : TokenStep Critical (fun g : SpinShared => g.locked ≠ 0) (c.locals i) c.shared
      worker g)
    (hbusy : worker.pc ≠ .tryLock → 0 < worker.remaining)
    (hloaded : ∀ value, worker.pc = .storeCounter value → value = g.counter)
    (hother : g.counter = c.shared.counter ∨ Critical (c.locals i))
    (hstored : g.counter = c.shared.counter ∧ owed worker = owed (c.locals i) ∨
      g.counter = c.shared.counter + 1 ∧ owed worker + 1 = owed (c.locals i)) :
    SpinInv iterations initial (c.move i worker g) where
  token := h.token.step htoken
  busy := forall_move (fun _ worker => worker.pc ≠ .tryLock → 0 < worker.remaining) c hbusy
    fun j _ => h.busy j
  loaded := by
    refine forall_move (fun _ worker => ∀ value, worker.pc = .storeCounter value →
      value = g.counter) c hloaded fun j hne value hpc => ?_
    rcases hother with hsame | hcritical
    · rw [hsame]
      exact h.loaded j value hpc
    · exact absurd (h.token.unique j i (by simp [Critical, hpc]) hcritical) hne
  stored := by
    obtain ⟨done, hcounter, hsum⟩ := h.stored
    have hmove := sum_move owed c i worker g
    rcases hstored with ⟨hsame, howed⟩ | ⟨hnext, howed⟩
    · exact ⟨done, hsame.trans hcounter, by omega⟩
    · refine ⟨done + 1, ?_, by omega⟩
      rw [move_shared, hnext, hcounter, UInt64.ofNat_add, UInt64.add_assoc]
      rfl

theorem SpinInv.step (h : SpinInv iterations initial c) {next : Worker × SpinShared}
    (hstep : workerStep c.shared (c.locals i) = some next) :
    SpinInv iterations initial (c.move i next.1 next.2) := by
  obtain ⟨⟨pc, k⟩, hworker⟩ : ∃ worker, c.locals i = worker := ⟨_, rfl⟩
  have hbusy := h.busy i
  rw [hworker] at hstep hbusy
  cases pc with
  | tryLock =>
      rcases k with _ | k
      · cases hstep
      · cases hstep
        by_cases hfree : c.shared.locked = 0
        · refine h.move (.inl ⟨not_not.mpr hfree, ?_, ?_⟩) (fun _ => Nat.succ_pos k) ?_ (.inl rfl)
            (.inl ⟨rfl, ?_⟩)
          · simp [hfree, Critical]
          · simp
          · simp [hfree]
          · simp [hfree, owed, hworker]
        · refine h.move (.inr (.inr ⟨?_, ?_⟩)) (fun _ => Nat.succ_pos k) ?_ (.inl rfl)
            (.inl ⟨rfl, ?_⟩)
          · simp [hfree, Critical, hworker]
          · simp [hfree]
          · simp [hfree]
          · simp [hfree, owed, hworker]
  | poll =>
      cases hstep
      refine h.move (.inr (.inr ⟨?_, Iff.rfl⟩)) (fun _ => hbusy (by simp)) ?_ (.inl rfl)
        (.inl ⟨rfl, ?_⟩)
      · split <;> simp [Critical, hworker]
      · split <;> simp
      · split <;> simp [owed, hworker]
  | loadCounter =>
      cases hstep
      refine h.move (.inr (.inr ⟨?_, Iff.rfl⟩)) (fun _ => hbusy (by simp)) ?_ (.inl rfl)
        (.inl ⟨rfl, ?_⟩)
      · simp [Critical, hworker]
      · rintro value ⟨⟩
        rfl
      · simp [owed, hworker]
  | storeCounter loaded =>
      cases hstep
      have hloaded : loaded = c.shared.counter := h.loaded i loaded (by rw [hworker])
      have hpos : 0 < k := hbusy (by simp)
      refine h.move (.inr (.inr ⟨?_, Iff.rfl⟩)) (fun _ => hpos) ?_ (.inr ?_) (.inr ⟨?_, ?_⟩)
      · simp [Critical, hworker]
      · simp
      · simp [Critical, hworker]
      · rw [hloaded]
      · simp only [owed, hworker]
        omega
  | unlock =>
      cases hstep
      refine h.move (.inr (.inl ⟨?_, ?_, ?_⟩)) (fun hpc => absurd rfl hpc) ?_ (.inl rfl)
        (.inl ⟨rfl, ?_⟩)
      · simp [Critical, hworker]
      · simp [Critical]
      · simp [mcsSpinUnlock]
      · simp
      · simp [owed, hworker]

omit [Fintype ι] in
theorem workerSystem_step {c' : Config ι Worker SpinShared} {result : Unit}
    (hstep : (workerSystem ι).step c (i, ()) = some (c', result)) :
    ∃ next, workerStep c.shared (c.locals i) = some next ∧ c' = c.move i next.1 next.2 := by
  obtain ⟨worker, g, hnext, rfl⟩ := interleave_step hstep
  obtain ⟨next, hworker, heq⟩ := Option.map_eq_some_iff.mp hnext
  cases heq
  exact ⟨next, hworker, rfl⟩

theorem spinInv_run {trace : List ((ι × Unit) × Unit)}
    (hrun : Run (workerSystem ι) (workerStart iterations initial) trace c) :
    SpinInv iterations initial c := by
  refine hrun.invariant (SpinInv iterations initial) ?_ spinInv_workerStart
  rintro c ⟨i, ⟨⟩⟩ c' ⟨⟩ h - hstep
  obtain ⟨next, hnext, rfl⟩ := workerSystem_step hstep
  exact h.step hnext

omit [DecidableEq ι] in
theorem SpinInv.exists_step (h : SpinInv iterations initial c)
    (hleft : ¬∀ i, (c.locals i).Finished) :
    ∃ i next, workerStep c.shared (c.locals i) = some next ∧
      work next.1 < work (c.locals i) := by
  by_cases hfree : c.shared.locked = 0
  · obtain ⟨i, hi⟩ := not_forall.mp hleft
    exact ⟨i, workerStep_free hfree (h.token.free (not_not.mpr hfree) i) hi⟩
  · obtain ⟨i, hi⟩ := h.token.taken_iff.mp hfree
    refine ⟨i, workerStep_critical hi (h.busy i fun hpc => ?_)⟩
    simp [Critical, hpc] at hi

theorem SpinInv.exists_finish (h : SpinInv iterations initial c) :
    ∃ trace c', Run (workerSystem ι) c trace c' ∧ ∀ i, (c'.locals i).Finished := by
  obtain ⟨n, hn⟩ : ∃ n, ∑ i, work (c.locals i) = n := ⟨_, rfl⟩
  induction n using Nat.strong_induction_on generalizing c with
  | _ n ih =>
      by_cases hleft : ∀ i, (c.locals i).Finished
      · exact ⟨[], c, .nil c, hleft⟩
      · obtain ⟨i, next, hstep, hless⟩ := h.exists_step hleft
        have hmove := sum_move work c i next.1 next.2
        obtain ⟨trace, c', hrun, hfinished⟩ := ih _ (by omega) (h.step hstep) rfl
        refine ⟨((i, ()), ()) :: trace, c', .cons trivial ?_ hrun, hfinished⟩
        simp [workerSystem, interleave, hstep]

/-- In every state at most one thread is between taking and releasing the lock; the
threads can finish; and when they have, every iteration is counted and the lock is
free. -/
theorem run_spinCounter {trace : List ((ι × Unit) × Unit)}
    (hrun : Run (workerSystem ι) (workerStart iterations initial) trace c) :
    (∀ i j, Critical (c.locals i) → Critical (c.locals j) → i = j) ∧
      (∃ rest c', Run (workerSystem ι) c rest c' ∧ ∀ i, (c'.locals i).Finished) ∧
      ((∀ i, (c.locals i).Finished) →
        c.shared.counter = initial + UInt64.ofNat (∑ i, iterations i) ∧
          mcsSpinIsLocked c.shared.locked = false) := by
  have h := spinInv_run hrun
  refine ⟨h.token.unique, h.exists_finish, fun hfinished => ⟨?_, ?_⟩⟩
  · obtain ⟨done, hcounter, hsum⟩ := h.stored
    have howed : ∑ i, owed (c.locals i) = 0 := by
      refine Finset.sum_eq_zero fun i _ => ?_
      rw [hfinished i]
      rfl
    rw [hcounter, ← hsum, howed, Nat.add_zero]
  · have hfree : ¬c.shared.locked ≠ 0 := by
      rw [h.token.taken_iff]
      rintro ⟨i, hi⟩
      rw [hfinished i] at hi
      exact hi
    simp [mcsSpinIsLocked, not_not.mp hfree]

end Counting

/-- Two threads with one iteration each; the second one polls while the first has the
lock. -/
def pollingMoves : List Bool :=
  [true, false, true, false, true, false, true, false, false, false, false, false]

def pollingConfig : Config Bool Worker SpinShared :=
  pollingMoves.foldl (fun c i => (((workerSystem Bool).step c (i, ())).map Prod.fst).getD c)
    (workerStart (fun _ => 1) 40)

theorem run_pollingConfig :
    Run (workerSystem Bool) (workerStart (fun _ => 1) 40)
      (pollingMoves.map fun i => ((i, ()), ())) pollingConfig := by
  refine .cons trivial rfl (.cons trivial rfl (.cons trivial rfl (.cons trivial rfl ?_)))
  refine .cons trivial rfl (.cons trivial rfl (.cons trivial rfl (.cons trivial rfl ?_)))
  exact .cons trivial rfl (.cons trivial rfl (.cons trivial rfl (.cons trivial rfl (.nil _))))

theorem finished_pollingConfig (i : Bool) : (pollingConfig.locals i).Finished := by
  cases i with
  | false => rfl
  | true => rfl

theorem run_spinCounter_pollingConfig :
    pollingConfig.shared.counter = 40 + UInt64.ofNat (∑ _ : Bool, 1) ∧
      mcsSpinIsLocked pollingConfig.shared.locked = false :=
  (run_spinCounter run_pollingConfig).2.2 finished_pollingConfig

end Mcsos.SpinlockCounter
