import Mcsos.SchedulerInvariant

namespace Mcsos.SchedulerFailures

open Mcsos.SchedulerInvariant
open Mcsos.SchedulerModel
open Mcsos.SchedulerQueue

/-- The calls that work on the ready list. -/
inductive QueueCall where
  | enqueue (thread : UInt64)
  | yield
  | blockCurrent
  | markReady (thread : UInt64)
deriving DecidableEq

def QueueCall.run (w : SchedWorld) : QueueCall → SchedWorld × McsosSchedResult
  | .enqueue thread => mcsosSchedEnqueue w thread
  | .yield => mcsosSchedYield w
  | .blockCurrent => mcsosThreadBlockCurrent w
  | .markReady thread => mcsosThreadMarkReady w thread

/-- The ready list, the current thread, the counters and the states of all threads are the
same. -/
structure Unchanged (w w' : SchedWorld) : Prop where
  readyHead : w'.sched.readyHead = w.sched.readyHead
  readyTail : w'.sched.readyTail = w.sched.readyTail
  next : ∀ t, (w'.threads t).next = (w.threads t).next
  runnableCount : w'.sched.runnableCount = w.sched.runnableCount
  current : w'.sched.current = w.sched.current
  contextSwitches : w'.sched.contextSwitches = w.sched.contextSwitches
  ticks : w'.sched.ticks = w.sched.ticks
  switches : ∀ t, (w'.threads t).switches = (w.threads t).switches
  threadTicks : ∀ t, (w'.threads t).ticks = (w.threads t).ticks
  state : ∀ t, (w'.threads t).state = (w.threads t).state

theorem Unchanged.refl (w : SchedWorld) : Unchanged w w :=
  ⟨rfl, rfl, fun _ => rfl, rfl, rfl, rfl, rfl, fun _ => rfl, fun _ => rfl, fun _ => rfl⟩

/-- A call that fails has changed nothing. -/
def FailsClean (w : SchedWorld) (call : QueueCall) : Prop :=
  (call.run w).2 ≠ .ok → Unchanged w (call.run w).1

/-- The scheduler is initialised and its current thread is a thread. -/
def Started (w : SchedWorld) : Prop :=
  w.sched.initialized = true ∧ validThreadObject w w.sched.current = true

/-- The calls that fail after they have changed something: the head of the ready list is taken
out before it is looked at, and the current thread is blocked before the next one is known. -/
def Disturbs (w : SchedWorld) : QueueCall → Prop
  | .enqueue _ => False
  | .yield => Started w ∧ w.sched.readyHead ≠ 0 ∧ validThreadObject w w.sched.readyHead = false
  | .blockCurrent => Started w ∧ w.sched.current ≠ w.sched.idle ∧
      (w.sched.readyHead ≠ 0 ∧ validThreadObject w w.sched.readyHead = false ∨
        w.sched.readyHead = 0 ∧ validThreadObject w w.sched.idle = false ∧
          (w.threads w.sched.current).state ≠ .blocked)
  | .markReady _ => False

section Calls

variable {w : SchedWorld}

theorem started_iff :
    Started w ↔ ¬(w.sched.initialized = false ∨ validThreadObject w w.sched.current = false) := by
  rw [Started, not_or, Bool.not_eq_false, Bool.not_eq_false]

/-- What `mcsos_sched_pick_next` returns. -/
def picked (w : SchedWorld) : UInt64 :=
  if w.sched.readyHead = 0 then w.sched.idle else w.sched.readyHead

theorem mcsosSchedPickNext_empty (hstarted : Started w) (hhead : w.sched.readyHead = 0) :
    mcsosSchedPickNext w = (w, w.sched.idle) := by
  have hinit : ¬w.sched.initialized = false := by simp [hstarted.1]
  rw [mcsosSchedPickNext, if_neg hinit]
  exact if_pos hhead

theorem mcsosSchedPickNext_head (hstarted : Started w) (hhead : w.sched.readyHead ≠ 0) :
    (mcsosSchedPickNext w).2 = w.sched.readyHead ∧
      (mcsosSchedPickNext w).1.sched.readyHead = (w.threads w.sched.readyHead).next ∧
      ((mcsosSchedPickNext w).1.threads w.sched.readyHead).next = 0 ∧
      (mcsosSchedPickNext w).1.sched.initialized = w.sched.initialized ∧
      ∀ t, validThreadObject (mcsosSchedPickNext w).1 t = validThreadObject w t := by
  have hinit : ¬w.sched.initialized = false := by simp [hstarted.1]
  rw [mcsosSchedPickNext, if_neg hinit]
  dsimp only
  rw [if_neg hhead]
  refine ⟨rfl, rfl, ?_, rfl, fun t => ?_⟩
  · simp
  · exact validThreadObject_congr (by simp)

theorem mcsosSchedPickNext_picked (hstarted : Started w) :
    (mcsosSchedPickNext w).2 = picked w ∧
      (mcsosSchedPickNext w).1.sched.initialized = w.sched.initialized ∧
      ∀ t, validThreadObject (mcsosSchedPickNext w).1 t = validThreadObject w t := by
  by_cases hhead : w.sched.readyHead = 0
  · rw [picked, if_pos hhead, mcsosSchedPickNext_empty hstarted hhead]
    exact ⟨rfl, rfl, fun _ => rfl⟩
  · obtain ⟨hpicked, -, -, hrest⟩ := mcsosSchedPickNext_head hstarted hhead
    rw [picked, if_neg hhead]
    exact ⟨hpicked, hrest⟩

theorem not_unchanged_of_picked {w' : SchedWorld} (hnull : w.sched.readyHead ≠ 0)
    (hnext : w'.sched.readyHead = (w.threads w.sched.readyHead).next)
    (hcut : (w'.threads w.sched.readyHead).next = 0) : ¬Unchanged w w' := by
  intro h
  apply hnull
  calc
    w.sched.readyHead = w'.sched.readyHead := h.readyHead.symm
    _ = (w'.threads w.sched.readyHead).next := by rw [hnext, h.next]
    _ = 0 := hcut

theorem mcsosSchedYield_cases (w : SchedWorld) :
    ¬Started w ∧ mcsosSchedYield w = (w, .einval) ∨
      Started w ∧ validThreadObject w (picked w) = false ∧
          mcsosSchedYield w = ((mcsosSchedPickNext w).1, .ecorrupt) ∨
      Started w ∧ validThreadObject w (picked w) = true ∧ (mcsosSchedYield w).2 = .ok := by
  by_cases hstarted : Started w
  · obtain ⟨hpicked, hinit, hmagic⟩ := mcsosSchedPickNext_picked hstarted
    rw [mcsosSchedYield, if_neg (started_iff.mp hstarted)]
    dsimp only
    rw [hmagic, hpicked]
    rcases hnext : validThreadObject w (picked w) with _ | _
    · exact .inr (.inl ⟨hstarted, rfl, if_pos rfl⟩)
    · refine .inr (.inr ⟨hstarted, rfl, ?_⟩)
      rw [if_neg (by decide)]
      split
      · rfl
      · split
        · -- The current thread is valid and has just been made `READY`.
          have hvalid : validThreadObject
              ((mcsosSchedPickNext w).1.setState w.sched.current .ready) w.sched.current = true :=
            (validThreadObject_congr (by simp)).trans ((hmagic _).trans hstarted.2)
          have hready : (((mcsosSchedPickNext w).1.setState w.sched.current .ready).threads
              w.sched.current).state = .ready := by
            simp
          have hinit' : ((mcsosSchedPickNext w).1.setState w.sched.current
              .ready).sched.initialized = true := hinit.trans hstarted.1
          rw [mcsosSchedEnqueue_accepted hinit' hvalid (.inr (.inl hready))]
          rfl
        · rfl
  · refine .inl ⟨hstarted, ?_⟩
    rw [started_iff, not_not] at hstarted
    rw [mcsosSchedYield, if_pos hstarted]

theorem failsClean_enqueue (w : SchedWorld) (t : UInt64) : FailsClean w (.enqueue t) := by
  rw [FailsClean, QueueCall.run, mcsosSchedEnqueue]
  split
  · exact fun _ => .refl w
  · split
    · exact fun _ => .refl w
    · exact fun hfail => absurd rfl hfail

theorem failsClean_markReady (w : SchedWorld) (t : UInt64) : FailsClean w (.markReady t) := by
  rw [FailsClean, QueueCall.run, mcsosThreadMarkReady]
  split
  · exact fun _ => .refl w
  · split
    · exact fun _ => .refl w
    · exact failsClean_enqueue w t

theorem failsClean_yield_iff (w : SchedWorld) : FailsClean w .yield ↔ ¬Disturbs w .yield := by
  rw [FailsClean, QueueCall.run, Disturbs]
  rcases mcsosSchedYield_cases w with
    ⟨hidle, hyield⟩ | ⟨hstarted, hpicked, hyield⟩ | ⟨-, hpicked, hok⟩
  · rw [hyield]
    exact iff_of_true (fun _ => .refl w) fun hbad => hidle hbad.1
  · rw [hyield]
    by_cases hhead : w.sched.readyHead = 0
    · rw [mcsosSchedPickNext_empty hstarted hhead]
      exact iff_of_true (fun _ => .refl w) fun hbad => hbad.2.1 hhead
    · obtain ⟨-, hnext, hcut, -⟩ := mcsosSchedPickNext_head hstarted hhead
      rw [picked, if_neg hhead] at hpicked
      refine iff_of_false (fun hclean => ?_) (not_not.mpr ⟨hstarted, hhead, hpicked⟩)
      exact not_unchanged_of_picked hhead hnext hcut (hclean (by simp))
  · refine iff_of_true (fun hfail => absurd hok hfail) ?_
    rintro ⟨-, hhead, hinvalid⟩
    rw [picked, if_neg hhead, hinvalid] at hpicked
    cases hpicked

theorem started_setState (w : SchedWorld) (t : UInt64) (state : McsosThreadState) :
    Started (w.setState t state) ↔ Started w := by
  rw [Started, Started, setState_sched, validThreadObject_congr (setState_magic w t _ state)]

theorem unchanged_setState_iff (w : SchedWorld) (t : UInt64) (state : McsosThreadState) :
    Unchanged w (w.setState t state) ↔ (w.threads t).state = state := by
  constructor
  · intro h
    have hstate := h.state t
    rw [setState_state, if_pos rfl] at hstate
    exact hstate.symm
  · rintro rfl
    have hsame : w.setState t (w.threads t).state = w := by
      rw [SchedWorld.setState, SchedWorld.setThread]
      exact congrArg (fun threads => { w with threads := threads }) (Function.update_eq_self t _)
    rw [hsame]
    exact .refl w

theorem failsClean_blockCurrent_iff (w : SchedWorld) :
    FailsClean w .blockCurrent ↔ ¬Disturbs w .blockCurrent := by
  rw [FailsClean, QueueCall.run, Disturbs, mcsosThreadBlockCurrent]
  by_cases hstarted : Started w
  · rw [if_neg (started_iff.mp hstarted), and_iff_right hstarted]
    by_cases hidle : w.sched.current = w.sched.idle
    · rw [if_pos hidle]
      exact iff_of_true (fun _ => .refl w) fun hbad => hbad.1 hidle
    · rw [if_neg hidle, and_iff_right hidle]
      have hvalid : ∀ t, validThreadObject (w.setState w.sched.current .blocked) t =
          validThreadObject w t := fun t => validThreadObject_congr (setState_magic w _ t _)
      have hblocked := (started_setState w w.sched.current .blocked).mpr hstarted
      rcases mcsosSchedYield_cases (w.setState w.sched.current .blocked) with
        ⟨hidle, -⟩ | ⟨-, hpicked, hyield⟩ | ⟨-, hpicked, hok⟩
      · exact absurd hblocked hidle
      · rw [hvalid, picked, setState_sched] at hpicked
        rw [hyield]
        by_cases hhead : w.sched.readyHead = 0
        · rw [if_pos hhead] at hpicked
          rw [mcsosSchedPickNext_empty hblocked hhead, hpicked]
          simp [hhead, unchanged_setState_iff]
        · obtain ⟨-, hnext, hcut, -⟩ := mcsosSchedPickNext_head hblocked hhead
          rw [setState_sched, setState_next] at hnext
          rw [if_neg hhead] at hpicked
          refine iff_of_false (fun hclean => ?_) (not_not.mpr (.inl ⟨hhead, hpicked⟩))
          exact not_unchanged_of_picked hhead hnext hcut (hclean (by simp))
      · rw [hvalid, picked, setState_sched] at hpicked
        refine iff_of_true (fun hfail => absurd hok hfail) ?_
        rintro (⟨hhead, hinvalid⟩ | ⟨hhead, hinvalid, -⟩)
        · rw [if_neg hhead, hinvalid] at hpicked
          cases hpicked
        · rw [if_pos hhead, hinvalid] at hpicked
          cases hpicked
  · have hrefused := hstarted
    rw [started_iff, not_not] at hrefused
    rw [if_pos hrefused]
    exact iff_of_true (fun _ => .refl w) fun hbad => hstarted hbad.1

/-- In every state, a call that fails changes nothing, except a yield that meets an object that
is no thread at the head of the ready list, and a block that meets one there or as the idle
thread. -/
theorem failsClean_iff (w : SchedWorld) (call : QueueCall) :
    FailsClean w call ↔ ¬Disturbs w call := by
  cases call with
  | enqueue t => exact iff_of_true (failsClean_enqueue w t) id
  | yield => exact failsClean_yield_iff w
  | blockCurrent => exact failsClean_blockCurrent_iff w
  | markReady t => exact iff_of_true (failsClean_markReady w t) id

end Calls

/-- The thread at the head of the ready list has lost its magic word. -/
def corruptWorld : SchedWorld :=
  { wakeRun.world with
    threads := Function.update wakeRun.world.threads 8192
      { wakeRun.world.threads 8192 with magic := 0 } }

/-- A yield finds the object, reports it, and has lost it from the list. -/
theorem corruptWorld_yield :
    (QueueCall.yield.run corruptWorld).2 = .ecorrupt ∧
      (corruptWorld.sched.readyHead = 8192 ∧ corruptWorld.sched.runnableCount = 1) ∧
      ((QueueCall.yield.run corruptWorld).1.sched.readyHead = 0 ∧
        (QueueCall.yield.run corruptWorld).1.sched.runnableCount = 0) ∧
      ¬FailsClean corruptWorld .yield := by
  have hhead : (QueueCall.yield.run corruptWorld).1.sched.readyHead = 0 := by decide
  refine ⟨by decide, by decide, by decide, fun hclean => ?_⟩
  have hsame := (hclean (by decide)).readyHead
  rw [hhead] at hsame
  exact absurd hsame (by decide)

end Mcsos.SchedulerFailures
