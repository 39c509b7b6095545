import Mcsos.SchedulerInvariant

/-!
What `mcsos_sched_enqueue` does to the ready queue in any state that the public
calls lead to.  The calls take any argument: a scheduler may be initialised again, a
thread may be picked and not run, and any object may be enqueued.
-/

namespace Mcsos.SchedulerEnqueue

open Mcsos.CallSystem
open Mcsos.PointerChain
open Mcsos.SchedulerInvariant
open Mcsos.SchedulerModel
open Mcsos.SchedulerQueue

theorem readyCountLoop_linked {w : SchedWorld} {l : List UInt64} {cur : UInt64}
    (hlinked : Linked (fun t => (w.threads t).next) 0 cur l) (count : UInt64) :
    readyCountLoop w cur count (l.length + 1) = some (count + UInt64.ofNat l.length) := by
  induction l generalizing cur count with
  | nil =>
      rw [linked_nil] at hlinked
      simp [readyCountLoop, hlinked]
  | cons a l ih =>
      obtain ⟨rfl, hnull, hrest⟩ := hlinked
      rw [List.length_cons, readyCountLoop, if_neg hnull, ih hrest, UInt64.ofNat_add,
        UInt64.add_assoc, UInt64.add_comm 1]
      rfl

theorem readyCountLoop_selfLinked {w : SchedWorld} {t : UInt64} (hnull : t ≠ 0)
    (hself : (w.threads t).next = t) (count : UInt64) (fuel : Nat) :
    readyCountLoop w t count fuel = none := by
  induction fuel generalizing count with
  | zero => rfl
  | succ fuel ih => rw [readyCountLoop, if_neg hnull, hself, ih]

theorem readyCountLoop_prefix {w : SchedWorld} {before after : List UInt64}
    {next : UInt64 → UInt64} {cur t : UInt64}
    (hlinked : Linked next 0 cur (before ++ t :: after))
    (hsame : ∀ b ∈ before, (w.threads b).next = next b) (count : UInt64) (fuel : Nat)
    (hend : ∀ count fuel, readyCountLoop w t count fuel = none) :
    readyCountLoop w cur count fuel = none := by
  induction before generalizing cur count fuel with
  | nil =>
      obtain ⟨rfl, -⟩ := hlinked
      exact hend count fuel
  | cons b before ih =>
      obtain ⟨rfl, hnull, hrest⟩ := hlinked
      rcases fuel with _ | fuel
      · rfl
      · rw [readyCountLoop, if_neg hnull, hsame cur List.mem_cons_self]
        exact ih hrest (fun c hc => hsame c (List.mem_cons_of_mem cur hc)) _ _

theorem mcsosSchedReadyCount_queue {w : SchedWorld} {l : List UInt64} (hqueue : ReadyQueue w l)
    (hinit : w.sched.initialized = true) :
    mcsosSchedReadyCount w (l.length + 1) = some w.sched.runnableCount := by
  have hargs : ¬w.sched.initialized = false := by simp [hinit]
  rw [mcsosSchedReadyCount, if_neg hargs, readyCountLoop_linked hqueue.linked, ← hqueue.count]
  simp

/-- The ready queue is `l`, and its threads are valid objects in the state `READY`. -/
structure QueueCore (w : SchedWorld) (l : List UInt64) : Prop where
  initialized : w.sched.initialized = true
  queue : ReadyQueue w l
  ready : ∀ t ∈ l, validThreadObject w t = true ∧ (w.threads t).state = .ready
  idle_valid : validThreadObject w w.sched.idle = true

/-- The invariant between calls: beside the queue, a thread runs that is not in it. -/
structure QueueState (w : SchedWorld) (l : List UInt64) : Prop where
  core : QueueCore w l
  current_valid : validThreadObject w w.sched.current = true
  current_running : (w.threads w.sched.current).state = .running
  current_unlisted : w.sched.current ∉ l

section Steps

variable {w w' : SchedWorld} {l : List UInt64} {t : UInt64}

theorem QueueState.validate (h : QueueState w l) : mcsosSchedValidate w = some .ok := by
  have hbound : (w.sched.current :: l).length < 2 ^ 64 := by
    refine length_lt_of_nodup (List.nodup_cons.mpr ⟨h.current_unlisted, h.core.queue.nodup⟩) ?_
    have hnull := ((validThreadObject_iff w w.sched.current).mp h.current_valid).1
    exact List.not_mem_cons_of_ne_of_not_mem hnull.symm h.core.queue.null_not_mem
  refine mcsosSchedValidate_ok h.core.queue h.core.initialized h.current_valid hbound ?_
  intro t ht
  obtain ⟨hvalid, hready⟩ := h.core.ready t ht
  exact ⟨hvalid, hready, fun heq => h.current_unlisted (heq ▸ ht)⟩

theorem QueueCore.congr (h : QueueCore w l)
    (hinit : w'.sched.initialized = w.sched.initialized) (hidle : w'.sched.idle = w.sched.idle)
    (hqueue : ReadyQueue w' l)
    (hmagic : ∀ x, (w'.threads x).magic = (w.threads x).magic)
    (hstate : ∀ x ∈ l, (w'.threads x).state = (w.threads x).state) : QueueCore w' l where
  initialized := hinit.trans h.initialized
  queue := hqueue
  ready x hx := by
    rw [validThreadObject_congr (hmagic x), hstate x hx]
    exact h.ready x hx
  idle_valid := by
    rw [hidle, validThreadObject_congr (hmagic _)]
    exact h.idle_valid

theorem QueueCore.setState (h : QueueCore w l) (hnot : t ∉ l) (state : McsosThreadState) :
    QueueCore (w.setState t state) l := by
  refine h.congr rfl rfl (h.queue.congr rfl rfl rfl fun x _ => setState_next w t x state)
    (fun x => setState_magic w t x state) fun x hx => ?_
  have hne : x ≠ t := fun heq => hnot (heq ▸ hx)
  rw [setState_state, if_neg hne]

theorem QueueCore.enqueue (h : QueueCore w l) (hvalid : validThreadObject w t = true)
    (hnot : t ∉ l)
    (hstate : (w.threads t).state = .new ∨ (w.threads t).state = .ready ∨
      (w.threads t).state = .blocked) :
    (mcsosSchedEnqueue w t).2 = .ok ∧ QueueCore (mcsosSchedEnqueue w t).1 (l ++ [t]) ∧
      Enqueued w (mcsosSchedEnqueue w t).1 t := by
  obtain ⟨hok, hqueue, henq⟩ := mcsosSchedEnqueue_spec h.queue h.initialized hvalid hnot hstate
  refine ⟨hok, ⟨henq.initialized.trans h.initialized, hqueue, ?_, ?_⟩, henq⟩
  · intro x hx
    rw [validThreadObject_congr (henq.magic x), henq.state]
    rcases eq_or_ne x t with rfl | hne
    · exact ⟨hvalid, if_pos rfl⟩
    · rw [if_neg hne]
      have hold : x ∈ l := by simpa [hne] using hx
      exact h.ready x hold
  · rw [henq.idle, validThreadObject_congr (henq.magic _)]
    exact h.idle_valid

theorem QueueCore.pickNext (h : QueueCore w l) :
    ∃ w' next l', mcsosSchedPickNext w = (w', next) ∧ QueueCore w' l' ∧ Picked w w' ∧
      validThreadObject w' next = true ∧ next ∉ l' ∧ ∀ t, t ∉ l → t ∉ l' := by
  rcases l with _ | ⟨t, l⟩
  · exact ⟨w, w.sched.idle, [], mcsosSchedPickNext_nil h.queue h.initialized, h,
      ⟨rfl, rfl, rfl, fun _ => rfl, fun _ => rfl⟩, h.idle_valid, List.not_mem_nil,
      fun _ _ => List.not_mem_nil⟩
  · obtain ⟨hnext, hqueue, hpicked⟩ := mcsosSchedPickNext_cons h.queue h.initialized
    refine ⟨(mcsosSchedPickNext w).1, t, l, by rw [← hnext], ?_, hpicked, ?_,
      (List.nodup_cons.mp h.queue.nodup).1, fun x hx hmem => hx (List.mem_cons_of_mem t hmem)⟩
    · refine ⟨hpicked.initialized.trans h.initialized, hqueue, fun x hx => ?_, ?_⟩
      · rw [validThreadObject_congr (hpicked.magic x), hpicked.state x]
        exact h.ready x (List.mem_cons_of_mem t hx)
      · rw [hpicked.idle, validThreadObject_congr (hpicked.magic _)]
        exact h.idle_valid
    · rw [validThreadObject_congr (hpicked.magic t)]
      exact (h.ready t List.mem_cons_self).1

theorem QueueCore.switchTo {next : UInt64} (h : QueueCore w l)
    (hvalid : validThreadObject w next = true) (hnot : next ∉ l) (old : UInt64) :
    QueueState (switchTo w old next) l := by
  have hspec := switchTo_spec w old next
  refine ⟨?_, ?_, ?_, ?_⟩
  · refine h.congr hspec.initialized hspec.idle (h.queue.congr hspec.readyHead hspec.readyTail
      hspec.runnableCount fun x _ => hspec.next x) hspec.magic fun x hx => ?_
    have hne : x ≠ next := fun heq => hnot (heq ▸ hx)
    rw [hspec.state, if_neg hne]
  · rw [hspec.current, validThreadObject_congr (hspec.magic next)]
    exact hvalid
  · rw [hspec.current, hspec.state, if_pos rfl]
  · rw [hspec.current]
    exact hnot

theorem QueueCore.yield (h : QueueCore w l)
    (hvalid : validThreadObject w w.sched.current = true) (hnot : w.sched.current ∉ l) :
    ∃ l', QueueState (mcsosSchedYield w).1 l' := by
  have hargs := not_refused h.initialized hvalid
  rw [mcsosSchedYield, if_neg hargs]
  dsimp only
  obtain ⟨old, hold⟩ : ∃ old, w.sched.current = old := ⟨_, rfl⟩
  rw [hold] at hvalid hnot ⊢
  obtain ⟨w', next, l', hpick, hcore, hpicked, hnext, hnextOut, hkeep⟩ := h.pickNext
  have holdValid : validThreadObject w' old = true :=
    (validThreadObject_congr (hpicked.magic old)).trans hvalid
  have hnextValid : ¬validThreadObject w' next = false := by simp [hnext]
  have holdOut : old ∉ l' := hkeep old hnot
  rw [hpick]
  dsimp only
  rw [if_neg hnextValid]
  rcases eq_or_ne next old with rfl | hne
  · rw [if_pos rfl]
    have hcur : (w'.setState next .running).sched.current = next := hpicked.current.trans hold
    refine ⟨l', hcore.setState hnextOut .running, ?_, ?_, ?_⟩
    · rw [hcur, validThreadObject_congr (setState_magic w' next next .running)]
      exact hnext
    · rw [hcur, setState_state, if_pos rfl]
    · rw [hcur]
      exact hnextOut
  · rw [if_neg hne]
    by_cases hrequeue : (w'.threads old).state = .running ∧ old ≠ w'.sched.idle
    · rw [if_pos hrequeue]
      have hready := hcore.setState holdOut .ready
      have hreadyValid : validThreadObject (w'.setState old .ready) old = true :=
        (validThreadObject_congr (setState_magic w' old old .ready)).trans holdValid
      obtain ⟨hok, hqueue, henq⟩ := hready.enqueue hreadyValid holdOut (.inr (.inl (by simp)))
      rw [if_neg (not_not.mpr hok)]
      refine ⟨l' ++ [old], hqueue.switchTo ?_ ?_ old⟩
      · rw [validThreadObject_congr (henq.magic next),
          validThreadObject_congr (setState_magic w' old next .ready)]
        exact hnext
      · simp [hnextOut, hne]
    · rw [if_neg hrequeue]
      exact ⟨l', hcore.switchTo hnext hnextOut old⟩

theorem QueueState.blockCurrent (h : QueueState w l) :
    ∃ l', QueueState (mcsosThreadBlockCurrent w).1 l' := by
  have hargs := not_refused h.core.initialized h.current_valid
  rw [mcsosThreadBlockCurrent, if_neg hargs]
  split
  · exact ⟨l, h⟩
  · refine (h.core.setState h.current_unlisted .blocked).yield ?_ h.current_unlisted
    exact (validThreadObject_congr (setState_magic w _ _ .blocked)).trans h.current_valid

theorem QueueState.enqueue (h : QueueState w l) (hnot : t ∉ l) :
    (mcsosSchedEnqueue w t).2 ≠ .ok ∧ (mcsosSchedEnqueue w t).1 = w ∨
      (mcsosSchedEnqueue w t).2 = .ok ∧ QueueState (mcsosSchedEnqueue w t).1 (l ++ [t]) := by
  by_cases hvalid : validThreadObject w t = true
  · by_cases hstate : (w.threads t).state = .new ∨ (w.threads t).state = .ready ∨
        (w.threads t).state = .blocked
    · obtain ⟨hok, hcore, henq⟩ := h.core.enqueue hvalid hnot hstate
      have hother : w.sched.current ≠ t := by
        rintro rfl
        simp [h.current_running] at hstate
      refine .inr ⟨hok, hcore, ?_, ?_, ?_⟩
      · rw [henq.current, validThreadObject_congr (henq.magic _)]
        exact h.current_valid
      · rw [henq.current, henq.state, if_neg hother]
        exact h.current_running
      · rw [henq.current]
        simp [h.current_unlisted, hother]
    · left
      simp only [not_or] at hstate
      simp [mcsosSchedEnqueue, h.core.initialized, hvalid, hstate]
  · left
    rw [Bool.not_eq_true] at hvalid
    simp [mcsosSchedEnqueue, hvalid]

theorem QueueState.markReady (h : QueueState w l) :
    ∃ l', QueueState (mcsosThreadMarkReady w t).1 l' := by
  rw [mcsosThreadMarkReady]
  split
  · exact ⟨l, h⟩
  · split
    · exact ⟨l, h⟩
    case isFalse hblocked =>
      have hnot : t ∉ l := by
        intro hmem
        rw [(h.core.ready t hmem).2] at hblocked
        exact hblocked (by simp)
      rcases h.enqueue hnot with ⟨-, hsame⟩ | ⟨-, hstate⟩
      · rw [hsame]
        exact ⟨l, h⟩
      · exact ⟨_, hstate⟩

theorem QueueState.pickNext (h : QueueState w l) :
    ∃ l', QueueState (mcsosSchedPickNext w).1 l' := by
  obtain ⟨w', next, l', hpick, hcore, hpicked, -, -, hkeep⟩ := h.core.pickNext
  rw [hpick]
  refine ⟨l', hcore, ?_, ?_, ?_⟩
  · rw [hpicked.current, validThreadObject_congr (hpicked.magic _)]
    exact h.current_valid
  · rw [hpicked.current, hpicked.state]
    exact h.current_running
  · rw [hpicked.current]
    exact hkeep _ h.current_unlisted

theorem QueueState.tick (h : QueueState w l) : QueueState (mcsosSchedTick w).1 l := by
  obtain ⟨hsched, hsame⟩ := mcsosSchedTick_spec h.core.initialized h.current_valid
  refine ⟨h.core.congr ?_ ?_ (h.core.queue.congr ?_ ?_ ?_ fun x _ => hsame.next x) hsame.magic
    fun x _ => hsame.state x, ?_, ?_, ?_⟩
  all_goals rw [hsched]
  · exact (validThreadObject_congr (hsame.magic _)).trans h.current_valid
  · exact (hsame.state _).trans h.current_running
  · exact h.current_unlisted

theorem QueueState.newThread (h : QueueState w l) {thread : McsosThread} (hnot : t ∉ l)
    (hother : t ≠ w.sched.current) (hnull : t ≠ 0) (hmagic : thread.magic = mcsosThreadMagic)
    (hsched : w'.sched = w.sched) (hthreads : w'.threads = Function.update w.threads t thread) :
    QueueState w' l := by
  have hsame : ∀ x, x ≠ t → w'.threads x = w.threads x := by
    intro x hx
    rw [hthreads, Function.update_of_ne hx]
  have hlisted : ∀ x ∈ l, x ≠ t := fun x hx heq => hnot (heq ▸ hx)
  have hvalid : ∀ x, validThreadObject w x = true → validThreadObject w' x = true := by
    intro x hx
    rcases eq_or_ne x t with rfl | hne
    · rw [validThreadObject_iff, hthreads, Function.update_self]
      exact ⟨hnull, hmagic⟩
    · rw [validThreadObject, hsame x hne]
      exact hx
  refine ⟨⟨?_, ?_, ?_, ?_⟩, ?_, ?_, ?_⟩
  · rw [hsched]
    exact h.core.initialized
  · refine h.core.queue.congr ?_ ?_ ?_ fun x hx => ?_
    · rw [hsched]
    · rw [hsched]
    · rw [hsched]
    · rw [hsame x (hlisted x hx)]
  · intro x hx
    obtain ⟨hobject, hready⟩ := h.core.ready x hx
    rw [hsame x (hlisted x hx)]
    exact ⟨hvalid x hobject, hready⟩
  · rw [hsched]
    exact hvalid _ h.core.idle_valid
  · rw [hsched]
    exact hvalid _ h.current_valid
  · rw [hsched, hsame _ hother.symm]
    exact h.current_running
  · rw [hsched]
    exact h.current_unlisted

theorem QueueState.prepare (h : QueueState w l) (hnot : t ∉ l) (hother : t ≠ w.sched.current)
    (trampoline name entry arg stackBase stackSize id : UInt64) :
    QueueState (mcsosThreadPrepare trampoline w t name entry arg stackBase stackSize id).1 l := by
  rcases mcsosThreadPrepare_cases w trampoline t name entry arg stackBase stackSize id with
    ⟨-, hsame⟩ | ⟨-, hnull, thread, hmagic, -, hsched, hthreads⟩
  · rw [hsame]
    exact h
  · exact h.newThread hnot hother hnull hmagic hsched hthreads

theorem queueState_init {boot bootName : UInt64} (hboot : boot ≠ 0) :
    QueueState (mcsosSchedulerInit w boot bootName).1 [] := by
  rw [mcsosSchedulerInit, if_neg hboot]
  have hvalid : ∀ w' : SchedWorld, (w'.threads boot).magic = mcsosThreadMagic →
      validThreadObject w' boot = true := fun w' hmagic =>
    (validThreadObject_iff w' boot).mpr ⟨hboot, hmagic⟩
  dsimp only [SchedWorld.setThread]
  refine ⟨⟨rfl, ⟨rfl, rfl, List.nodup_nil, rfl⟩, ?_, ?_⟩, ?_, ?_, List.not_mem_nil⟩
  · intro x hx
    cases hx
  · exact hvalid _ (by simp)
  · exact hvalid _ (by simp)
  · simp

end Steps

/-- What is asked of `mcsos_sched_enqueue` on the queue `l`: an error leaves the queue
as it is, otherwise the thread is its new last element, and in both cases
`mcsos_sched_ready_count` ends and `mcsos_sched_validate` succeeds. -/
structure EnqueueSafe (w : SchedWorld) (l : List UInt64) (t : UInt64) : Prop where
  effect : (mcsosSchedEnqueue w t).2 ≠ .ok ∧ ReadyQueue (mcsosSchedEnqueue w t).1 l ∧
      (mcsosSchedEnqueue w t).1.sched.readyTail = w.sched.readyTail ∧
      (mcsosSchedEnqueue w t).1.sched.runnableCount = w.sched.runnableCount ∨
    (mcsosSchedEnqueue w t).2 = .ok ∧ ReadyQueue (mcsosSchedEnqueue w t).1 (l ++ [t])
  counted : ∃ fuel, mcsosSchedReadyCount (mcsosSchedEnqueue w t).1 fuel =
    some (mcsosSchedEnqueue w t).1.sched.runnableCount
  validated : mcsosSchedValidate (mcsosSchedEnqueue w t).1 = some .ok

section Enqueue

variable {w : SchedWorld} {l : List UInt64} {t : UInt64}

theorem QueueState.enqueueSafe (h : QueueState w l) (hnot : t ∉ l) : EnqueueSafe w l t := by
  rcases h.enqueue hnot with ⟨herror, hsame⟩ | ⟨hok, hstate⟩
  · refine ⟨.inl ⟨herror, ?_⟩, ⟨l.length + 1, ?_⟩, ?_⟩
    · rw [hsame]
      exact ⟨h.core.queue, rfl, rfl⟩
    · rw [hsame]
      exact mcsosSchedReadyCount_queue h.core.queue h.core.initialized
    · rw [hsame]
      exact h.validate
  · exact ⟨.inr ⟨hok, hstate.core.queue⟩, ⟨(l ++ [t]).length + 1,
      mcsosSchedReadyCount_queue hstate.core.queue hstate.core.initialized⟩, hstate.validate⟩

theorem QueueState.enqueue_listed (h : QueueState w l) (hmem : t ∈ l) :
    mcsosSchedEnqueue w t =
      ({ ((w.setState t .ready).setNext t 0).setNext w.sched.readyTail t with
          sched := { w.sched with
            readyTail := t, runnableCount := w.sched.runnableCount + 1 } }, .ok) := by
  obtain ⟨hvalid, hready⟩ := h.core.ready t hmem
  apply mcsosSchedEnqueue_tail h.core.initialized hvalid (.inr (.inl hready))
  rw [ne_eq, h.core.queue.tail_eq_zero]
  exact List.ne_nil_of_mem hmem

theorem QueueState.enqueueSafe_iff (h : QueueState w l) : EnqueueSafe w l t ↔ t ∉ l := by
  refine ⟨fun hsafe hmem => ?_, h.enqueueSafe⟩
  rcases hsafe.effect with ⟨herror, -⟩ | ⟨-, hqueue⟩
  · rw [h.enqueue_listed hmem] at herror
    exact herror rfl
  · have hdisjoint := (List.nodup_append.mp hqueue.nodup).2.2
    exact hdisjoint t hmem t List.mem_cons_self rfl

theorem QueueState.enqueue_last {before : List UInt64} (h : QueueState w (before ++ [t]))
    (fuel : Nat) : mcsosSchedReadyCount (mcsosSchedEnqueue w t).1 fuel = none := by
  have hmem : t ∈ before ++ [t] := List.mem_append_right _ List.mem_cons_self
  have hnull : t ≠ 0 := h.core.queue.linked.ne_null hmem
  have htail : w.sched.readyTail = t := by
    rw [h.core.queue.tail]
    simp
  have hnot : t ∉ before := by
    intro hbefore
    exact (List.nodup_append.mp h.core.queue.nodup).2.2 t hbefore t List.mem_cons_self rfl
  rw [h.enqueue_listed hmem, htail, mcsosSchedReadyCount, if_neg (by simp [h.core.initialized])]
  refine readyCountLoop_prefix h.core.queue.linked ?_ _ _ fun count fuel => ?_
  · intro b hb
    have hne : b ≠ t := fun heq => hnot (heq ▸ hb)
    simp [hne]
  · exact readyCountLoop_selfLinked hnull (by simp) count fuel

theorem QueueState.enqueue_inner {before after : List UInt64}
    (h : QueueState w (before ++ t :: after)) (hafter : after ≠ []) :
    Linked (fun x => ((mcsosSchedEnqueue w t).1.threads x).next) 0
        (mcsosSchedEnqueue w t).1.sched.readyHead (before ++ [t]) ∧
      (mcsosSchedEnqueue w t).1.sched.runnableCount = w.sched.runnableCount + 1 := by
  have hmem : t ∈ before ++ t :: after := List.mem_append_right _ List.mem_cons_self
  obtain ⟨last, hlast⟩ : ∃ last, after.getLast? = some last :=
    ⟨_, List.getLast?_eq_some_getLast hafter⟩
  have htail : w.sched.readyTail = last := by
    rw [h.core.queue.tail, List.getLast?_append, List.getLast?_cons, hlast]
    rfl
  obtain ⟨-, hrest, hdisjoint⟩ := List.nodup_append.mp h.core.queue.nodup
  have hlastMem : last ∈ after := List.mem_of_getLast? hlast
  have hother : t ≠ last := by
    rintro rfl
    exact (List.nodup_cons.mp hrest).1 hlastMem
  rw [h.enqueue_listed hmem, htail]
  refine ⟨h.core.queue.linked.cut (fun b hb => ?_) ?_, rfl⟩
  · have hbt : b ≠ t := hdisjoint b hb t List.mem_cons_self
    have hblast : b ≠ last := hdisjoint b hb last (List.mem_cons_of_mem t hlastMem)
    simp [hbt, hblast]
  · simp [hother]

end Enqueue

inductive PublicCall where
  | init (bootThread bootName : UInt64)
  | prepare (thread name entry arg stackBase stackSize id : UInt64)
  | enqueue (thread : UInt64)
  | pickNext
  | yield
  | tick
  | blockCurrent
  | markReady (thread : UInt64)
deriving DecidableEq

inductive CallResult where
  | code (rc : McsosSchedResult)
  | thread (t : UInt64)
deriving DecidableEq

def returnCode (result : SchedWorld × McsosSchedResult) : SchedWorld × CallResult :=
  (result.1, .code result.2)

def publicStep (trampoline : UInt64) (w : SchedWorld) : PublicCall → SchedWorld × CallResult
  | .init bootThread bootName => returnCode (mcsosSchedulerInit w bootThread bootName)
  | .prepare thread name entry arg stackBase stackSize id =>
      returnCode (mcsosThreadPrepare trampoline w thread name entry arg stackBase stackSize id)
  | .enqueue thread => returnCode (mcsosSchedEnqueue w thread)
  | .pickNext =>
      let (w, thread) := mcsosSchedPickNext w
      (w, .thread thread)
  | .yield => returnCode (mcsosSchedYield w)
  | .tick => returnCode (mcsosSchedTick w)
  | .blockCurrent => returnCode (mcsosThreadBlockCurrent w)
  | .markReady thread => returnCode (mcsosThreadMarkReady w thread)

/-- The public calls on one scheduler, in any order and with any arguments. -/
def publicSystem (trampoline : UInt64) : System SchedWorld PublicCall CallResult where
  allowed _ _ := True
  step w call := some (publicStep trampoline w call)

def Listed (w : SchedWorld) (t : UInt64) : Prop := ∃ l, ReadyQueue w l ∧ t ∈ l

/-- No thread of the ready queue is enqueued again, and neither such a thread nor the
running one is prepared anew. -/
def Careful (w : SchedWorld) : PublicCall → Prop
  | .enqueue thread => ¬Listed w thread
  | .prepare thread _ _ _ _ _ _ => ¬Listed w thread ∧ thread ≠ w.sched.current
  | _ => True

def carefulSystem (trampoline : UInt64) : System SchedWorld PublicCall CallResult :=
  { publicSystem trampoline with allowed := Careful }

section Runs

variable {trampoline boot bootName : UInt64} {w w' : SchedWorld} {l : List UInt64}
  {trace : List (PublicCall × CallResult)}

theorem listed_iff {t : UInt64} (h : ReadyQueue w l) : Listed w t ↔ t ∈ l := by
  constructor
  · rintro ⟨l', h', hmem⟩
    rwa [h.linked.unique h'.linked]
  · intro hmem
    exact ⟨l, h, hmem⟩

theorem queueState_step (trampoline : UInt64) (h : QueueState w l) {call : PublicCall}
    (hcareful : Careful w call) :
    ∃ l', QueueState (publicStep trampoline w call).1 l' := by
  cases call with
  | init bootThread bootName =>
      by_cases hboot : bootThread = 0
      · refine ⟨l, ?_⟩
        rw [publicStep, returnCode, mcsosSchedulerInit, if_pos hboot]
        exact h
      · exact ⟨[], queueState_init hboot⟩
  | prepare thread name entry arg stackBase stackSize id =>
      have hnot : thread ∉ l := fun hmem => hcareful.1 ((listed_iff h.core.queue).mpr hmem)
      exact ⟨l, h.prepare hnot hcareful.2 _ _ _ _ _ _ _⟩
  | enqueue thread =>
      have hnot : thread ∉ l := fun hmem => hcareful ((listed_iff h.core.queue).mpr hmem)
      rcases h.enqueue hnot with ⟨-, hsame⟩ | ⟨-, hstate⟩
      · refine ⟨l, ?_⟩
        rw [publicStep, returnCode, hsame]
        exact h
      · exact ⟨_, hstate⟩
  | pickNext => exact h.pickNext
  | yield => exact h.core.yield h.current_valid h.current_unlisted
  | tick => exact ⟨l, h.tick⟩
  | blockCurrent => exact h.blockCurrent
  | markReady thread => exact h.markReady

theorem queueState_run (hboot : boot ≠ 0)
    (hrun : Run (carefulSystem trampoline) (mcsosSchedulerInit w boot bootName).1 trace w') :
    ∃ l, QueueState w' l := by
  refine hrun.invariant_total (fun _ _ => rfl) (fun w => ∃ l, QueueState w l) ?_
    ⟨[], queueState_init hboot⟩
  rintro w call ⟨l, h⟩ hcareful
  exact queueState_step trampoline h hcareful

/-- In every state that careful calls lead to, the ready queue is a list, and
`mcsos_sched_enqueue` is safe for exactly the threads that are not in it. -/
theorem run_enqueueSafe_iff (hboot : boot ≠ 0)
    (hrun : Run (carefulSystem trampoline) (mcsosSchedulerInit w boot bootName).1 trace w') :
    ∃ l, ReadyQueue w' l ∧ mcsosSchedValidate w' = some .ok ∧
      ∀ t, EnqueueSafe w' l t ↔ ¬Listed w' t := by
  obtain ⟨l, h⟩ := queueState_run hboot hrun
  refine ⟨l, h.core.queue, h.validate, fun t => ?_⟩
  rw [listed_iff h.core.queue]
  exact h.enqueueSafe_iff

/-- A thread is prepared and enqueued. -/
def queuedCalls : List PublicCall := [.prepare 8192 0 64 0 65536 8192 1, .enqueue 8192]

def queuedWorld : SchedWorld :=
  queuedCalls.foldl (fun w call => (publicStep 256 w call).1) bootRun.world

theorem queueState_bootRun : QueueState bootRun.world [] := queueState_init (by decide)

theorem queueState_prepared :
    QueueState (publicStep 256 bootRun.world (.prepare 8192 0 64 0 65536 8192 1)).1 [] :=
  queueState_bootRun.prepare List.not_mem_nil (by decide) 256 0 64 0 65536 8192 1

theorem queueState_queuedWorld : QueueState queuedWorld [8192] := by
  rcases queueState_prepared.enqueue (t := 8192) List.not_mem_nil with ⟨herror, -⟩ | ⟨-, hstate⟩
  · exact absurd (by decide) herror
  · exact hstate

theorem run_queuedWorld :
    Run (carefulSystem 256) bootRun.world (queuedCalls.zip [.code .ok, .code .ok])
      queuedWorld := by
  have hempty : ∀ {w : SchedWorld}, QueueState w [] → ¬Listed w 8192 := by
    intro w h
    rw [listed_iff h.core.queue]
    exact List.not_mem_nil
  refine .cons ⟨hempty queueState_bootRun, by decide⟩ rfl ?_
  exact .cons (hempty queueState_prepared) rfl (.nil _)

theorem run_enqueueSafe_iff_queuedWorld :
    ∃ l, ReadyQueue queuedWorld l ∧ mcsosSchedValidate queuedWorld = some .ok ∧
      ∀ t, EnqueueSafe queuedWorld l t ↔ ¬Listed queuedWorld t :=
  run_enqueueSafe_iff (by decide) run_queuedWorld

/-- A thread that has just been enqueued is enqueued once more: the call succeeds, and
the queue has no end. -/
theorem not_enqueueSafe_twice :
    ∃ trace w, Run (publicSystem 256) bootRun.world trace w ∧ ReadyQueue w [8192] ∧
      validThreadObject w 8192 = true ∧ ¬EnqueueSafe w [8192] 8192 ∧
      (mcsosSchedEnqueue w 8192).2 = .ok ∧
      ∀ fuel, mcsosSchedReadyCount (mcsosSchedEnqueue w 8192).1 fuel = none := by
  have hqueued : QueueState queuedWorld ([] ++ [8192]) := queueState_queuedWorld
  refine ⟨queuedCalls.zip [.code .ok, .code .ok], queuedWorld, ?_, hqueued.core.queue,
    by decide, ?_, by decide, hqueued.enqueue_last⟩
  · exact .cons trivial rfl (.cons trivial rfl (.nil _))
  · rw [queueState_queuedWorld.enqueueSafe_iff]
    simp

end Runs

end Mcsos.SchedulerEnqueue
