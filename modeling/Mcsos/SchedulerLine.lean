import Mcsos.SchedulerTurns
import Mcsos.TurnQueue

namespace Mcsos.SchedulerLine

open Mcsos.CallSystem
open Mcsos.PointerChain
open Mcsos.SchedulerInvariant
open Mcsos.SchedulerModel
open Mcsos.SchedulerQueue
open Mcsos.SchedulerTurns
open Mcsos.TurnQueue

/-- What a call that has returned does to the line. -/
def moveOf : SchedCall × McsosSchedResult → Move UInt64
  | (.yield, .ok) => .rotate
  | (.blockCurrent, .ok) => .leave
  | (.enqueue thread, .ok) => .join thread
  | (.markReady thread, .ok) => .join thread
  | _ => .stay

/-- The thread that runs, and the ready list. -/
structure Stands (boot : UInt64) (r : SchedRun) (line : Line UInt64) : Prop where
  current : r.world.sched.current = line.current
  inv : SchedInv boot r.prepared r.world line.waiting

section Steps

variable {trampoline boot : UInt64} {r : SchedRun} {line : Line UInt64}

theorem advance_eq (boot : UInt64) (line : Line UInt64) (requeued : List UInt64) :
    line.advance boot requeued =
      ⟨(nextTurn boot requeued line.waiting).1, (nextTurn boot requeued line.waiting).2⟩ := by
  rw [Line.advance]
  rcases line.waiting with _ | ⟨t, l⟩
  · rfl
  · rfl

theorem Stands.yield (h : Stands boot r line) :
    Stands boot (r.step trampoline .yield).1
      (line.step boot (moveOf (.yield, (r.step trampoline .yield).2))) := by
  obtain ⟨hok, hinv, hcurrent, -⟩ := yield_spec h.inv
  have hresult : (r.step trampoline .yield).2 = .ok := hok
  have hrequeued : requeued r.world = if line.current = boot then [] else [line.current] := by
    rw [← h.current]
    by_cases hboot : r.world.sched.current = boot
    · rw [if_pos hboot, requeued_of_idle h.inv hboot]
    · rw [if_neg hboot, requeued_of_running h.inv hboot]
  rw [hrequeued] at hinv hcurrent
  rw [hresult, moveOf, Line.step, advance_eq]
  exact ⟨hcurrent, hinv⟩

theorem moveOf_blockCurrent {result : McsosSchedResult} (hresult : result ≠ .ok) :
    moveOf (.blockCurrent, result) = .stay := by
  cases result
  case ok => exact absurd rfl hresult
  all_goals rfl

theorem blockCurrent_refused {prepared l : List UInt64} {w : SchedWorld}
    (h : SchedInv boot prepared w l) (hfailed : (mcsosThreadBlockCurrent w).2 ≠ .ok) :
    (mcsosThreadBlockCurrent w).1 = w := by
  have hargs := not_refused h.queue.initialized h.valid_current
  rw [mcsosThreadBlockCurrent, if_neg hargs] at hfailed ⊢
  by_cases hidle : w.sched.current = w.sched.idle
  · rw [if_pos hidle]
  · have hboot : w.sched.current ≠ boot := h.queue.idle ▸ hidle
    have hblocked := h.queue.setState .blocked List.mem_cons_self fun heq => absurd heq hboot
    rw [if_neg hidle] at hfailed
    exact absurd (yield_inv hblocked h.current (.inr ⟨by simp, hboot⟩)).1 hfailed

theorem Stands.blockCurrent (h : Stands boot r line) :
    Stands boot (r.step trampoline .blockCurrent).1
      (line.step boot (moveOf (.blockCurrent, (r.step trampoline .blockCurrent).2))) := by
  by_cases hok : (mcsosThreadBlockCurrent r.world).2 = .ok
  · have hresult : (r.step trampoline .blockCurrent).2 = .ok := hok
    obtain ⟨-, hinv, hcurrent⟩ := blockCurrent_turn h.inv hok
    rw [hresult, moveOf, Line.step, advance_eq]
    exact ⟨hcurrent, hinv⟩
  · have hresult : (r.step trampoline .blockCurrent).2 ≠ .ok := hok
    have hworld : (r.step trampoline .blockCurrent).1 = r :=
      congrArg (SchedRun.mk · r.prepared) (blockCurrent_refused h.inv hok)
    rw [hworld, moveOf_blockCurrent hresult]
    exact h

theorem enqueue_last {prepared l : List UInt64} {w : SchedWorld} {t : UInt64}
    (h : SchedInv boot prepared w l) (ht : t ∈ prepared)
    (hstate : (w.threads t).state = .new ∨ (w.threads t).state = .blocked) :
    (mcsosSchedEnqueue w t).2 = .ok ∧ SchedInv boot prepared (mcsosSchedEnqueue w t).1 (l ++ [t]) ∧
      (mcsosSchedEnqueue w t).1.sched.current = w.sched.current := by
  have hnot : t ∉ l := by
    rw [← ready_iff h ht]
    rcases hstate with hnew | hblocked
    · rw [hnew]
      decide
    · rw [hblocked]
      decide
  obtain ⟨hok, hqueue, henq⟩ := mcsosSchedEnqueue_spec h.queue.queue h.queue.initialized
    (h.queue.valid t ht) hnot (hstate.imp_right Or.inr)
  obtain ⟨l', hinv⟩ := h.enqueue ht hstate
  rw [hinv.queue.queue.linked.unique hqueue.linked] at hinv
  exact ⟨hok, hinv, henq.current⟩

theorem Stands.join {t : UInt64} (h : Stands boot r line) (ht : t ∈ r.prepared)
    (hstate : (r.world.threads t).state = .new ∨ (r.world.threads t).state = .blocked) :
    Stands boot (r.call (mcsosSchedEnqueue r.world t)).1 (line.step boot (.join t)) := by
  obtain ⟨-, hinv, hcurrent⟩ := enqueue_last h.inv ht hstate
  exact ⟨hcurrent.trans h.current, hinv⟩

theorem Stands.markReady {t : UInt64} (h : Stands boot r line)
    (ht : t ∈ r.prepared ∨ t = boot ∨ t = 0) :
    Stands boot (r.step trampoline (.markReady t)).1
      (line.step boot (moveOf (.markReady t, (r.step trampoline (.markReady t)).2))) := by
  have hstep : r.step trampoline (.markReady t) = r.call (mcsosThreadMarkReady r.world t) := rfl
  rw [hstep, mcsosThreadMarkReady]
  by_cases hvalid : validThreadObject r.world t = false
  · rw [if_pos hvalid]
    exact h
  · rw [if_neg hvalid]
    by_cases hblocked : (r.world.threads t).state = .blocked
    · rw [if_neg (not_not.mpr hblocked)]
      have hprepared : t ∈ r.prepared := by
        rcases ht with hmem | rfl | rfl
        · exact hmem
        · rw [h.inv.queue.boot_running] at hblocked
          cases hblocked
        · exact absurd rfl hvalid
      have hok : (r.call (mcsosSchedEnqueue r.world t)).2 = .ok :=
        (enqueue_last h.inv hprepared (.inr hblocked)).1
      rw [hok]
      exact h.join hprepared (.inr hblocked)
    · rw [if_pos hblocked]
      exact h

theorem Stands.prepare {thread name entry arg stackBase stackSize id : UInt64}
    (h : Stands boot r line) (hallowed : thread ∉ r.prepared ∧ thread ≠ boot) :
    Stands boot
      (r.step trampoline (.prepare thread name entry arg stackBase stackSize id)).1 line := by
  rw [SchedRun.step]
  dsimp only
  have hcurrent : (mcsosThreadPrepare trampoline r.world thread name entry arg stackBase
      stackSize id).1.sched.current = line.current := by
    rw [← h.current]
    rcases mcsosThreadPrepare_cases r.world trampoline thread name entry arg stackBase stackSize
      id with ⟨-, hsame⟩ | ⟨-, -, object, -, -, hsched, -⟩
    · rw [hsame]
    · rw [hsched]
  rcases h.inv.prepare hallowed.1 hallowed.2 with ⟨hok, hinv⟩ | ⟨hfail, hsame⟩
  · rw [if_pos hok]
    exact ⟨hcurrent, hinv⟩
  · rw [if_neg hfail, hsame]
    exact h

/-- Every call moves the line as its result says. -/
theorem Stands.step (trampoline : UInt64) (h : Stands boot r line) (call : SchedCall)
    (hallowed : r.Allowed boot call) :
    Stands boot (r.step trampoline call).1
      (line.step boot (moveOf (call, (r.step trampoline call).2))) := by
  cases call with
  | prepare thread name entry arg stackBase stackSize id => exact h.prepare hallowed
  | enqueue thread =>
      have hok : (r.step trampoline (.enqueue thread)).2 = .ok :=
        (enqueue_last h.inv hallowed.1 hallowed.2).1
      rw [hok]
      exact h.join hallowed.1 hallowed.2
  | yield => exact h.yield
  | blockCurrent => exact h.blockCurrent
  | markReady thread => exact h.markReady hallowed
  | tick =>
      obtain ⟨hsched, -⟩ := mcsosSchedTick_spec h.inv.queue.initialized h.inv.valid_current
      refine ⟨?_, h.inv.tick⟩
      exact (congrArg McsosScheduler.current hsched).trans h.current

end Steps

section Runs

variable {trampoline boot bootName : UInt64} {w : SchedWorld} {r r' : SchedRun}
  {line : Line UInt64} {trace trace' : List (SchedCall × McsosSchedResult)}

theorem Stands.run (h : Stands boot r line)
    (hrun : Run (schedSystem trampoline boot) r trace r') :
    Stands boot r' (line.run boot (trace.map moveOf)) := by
  induction hrun generalizing line with
  | nil => exact h
  | cons hallowed hstep _ ih =>
      have hnext := h.step trampoline _ hallowed
      rw [Option.some.inj hstep] at hnext
      exact ih hnext

theorem stands_startRun (hinit : (mcsosSchedulerInit w boot bootName).2 = .ok) :
    Stands boot (startRun w boot bootName) ⟨boot, []⟩ := by
  refine ⟨?_, schedInv_startRun hinit⟩
  rw [startRun]
  unfold mcsosSchedulerInit at hinit ⊢
  split at hinit
  case isTrue => cases hinit
  case isFalse hnull => rw [if_neg hnull]

/-- After any run of calls the thread that runs and the ready list are those of a line that
threads join at its end and leave at its front, moved by the calls and their results. -/
theorem run_line (hinit : (mcsosSchedulerInit w boot bootName).2 = .ok)
    (hrun : Run (schedSystem trampoline boot) (startRun w boot bootName) trace r) :
    r.world.sched.current = (Line.run boot ⟨boot, []⟩ (trace.map moveOf)).current ∧
      Linked (fun t => (r.world.threads t).next) 0 r.world.sched.readyHead
        (Line.run boot ⟨boot, []⟩ (trace.map moveOf)).waiting := by
  have hstands := (stands_startRun hinit).run hrun
  exact ⟨hstands.current, hstands.inv.queue.queue.linked⟩

theorem run_line_pairRun :
    pairRun.world.sched.current = 8192 ∧
      Linked (fun t => (pairRun.world.threads t).next) 0 pairRun.world.sched.readyHead [12288] :=
  run_line (by decide) run_pairRun

/-- No thread is overtaken: one with `i` threads in front of it has moved forward by the number
of turns that were given since, whatever else was called, and it runs after turn `i + 1`. -/
theorem run_waits (hinit : (mcsosSchedulerInit w boot bootName).2 = .ok)
    (hbefore : Run (schedSystem trampoline boot) (startRun w boot bootName) trace r)
    {l : List UInt64} (hlist : Linked (fun t => (r.world.threads t).next) 0
      r.world.sched.readyHead l)
    {i : Nat} {t : UInt64} (ht : l[i]? = some t)
    (hrun : Run (schedSystem trampoline boot) r trace' r') :
    (turns (trace'.map moveOf) ≤ i →
      ∃ l', Linked (fun t => (r'.world.threads t).next) 0 r'.world.sched.readyHead l' ∧
        l'[i - turns (trace'.map moveOf)]? = some t) ∧
      (turns (trace'.map moveOf) = i →
        (r'.step trampoline .yield).1.world.sched.current = t ∧
          ((r'.step trampoline .blockCurrent).2 = .ok →
            (r'.step trampoline .blockCurrent).1.world.sched.current = t)) := by
  have hstart := (stands_startRun hinit).run hbefore
  have hsame := hstart.inv.queue.queue.linked.unique hlist
  have hstands := hstart.run hrun
  rw [← hsame] at ht
  constructor
  · intro hturns
    exact ⟨_, hstands.inv.queue.queue.linked, Line.waiting_run boot ht hturns⟩
  · intro hturns
    have hfirst := Line.waiting_run boot ht (Nat.le_of_eq hturns)
    rw [hturns, Nat.sub_self] at hfirst
    have hyield := (hstands.step trampoline .yield trivial).current
    have hblock := (hstands.step trampoline .blockCurrent trivial).current
    constructor
    · have hok : (r'.step trampoline .yield).2 = .ok := (yield_spec hstands.inv).1
      rw [hok] at hyield
      exact hyield.trans (Line.current_step hfirst rfl)
    · intro hok
      rw [hok] at hblock
      exact hblock.trans (Line.current_step hfirst rfl)

theorem run_waits_pairRun :
    (((pairRun.step 256 .tick).1.step 256 .yield).1.world.sched.current = 12288) := by
  have hlist : Linked (fun t => (pairRun.world.threads t).next) 0 pairRun.world.sched.readyHead
      [12288] := by
    rw [linked_cons, linked_nil]
    decide
  have hrun : Run (schedSystem 256 4096) pairRun [(.tick, .ok)] (pairRun.step 256 .tick).1 :=
    .cons trivial rfl (.nil _)
  exact ((run_waits (by decide) run_pairRun hlist rfl hrun).2 rfl).1

end Runs

end Mcsos.SchedulerLine
