import Mathlib.Algebra.BigOperators.Group.Finset.Piecewise
import Mcsos.SchedulerLine

namespace Mcsos.SchedulerStatistics

open Mcsos.CallSystem
open Mcsos.SchedulerInvariant
open Mcsos.SchedulerLine
open Mcsos.SchedulerModel
open Mcsos.SchedulerQueue
open Mcsos.SchedulerTurns
open Mcsos.TurnQueue

@[ext]
structure Counters where
  contextSwitches : UInt64
  ticks : UInt64
  switches : UInt64 → UInt64
  threadTicks : UInt64 → UInt64

def counters (w : SchedWorld) : Counters :=
  ⟨w.sched.contextSwitches, w.sched.ticks, fun t => (w.threads t).switches,
    fun t => (w.threads t).ticks⟩

/-- The thread `next` has taken over from `old`. -/
def Counters.switched (c : Counters) (old next : UInt64) : Counters :=
  { c with
    contextSwitches := c.contextSwitches + 1
    switches := fun t => if t = old ∨ t = next then c.switches t + 1 else c.switches t }

def Counters.ticked (c : Counters) (current : UInt64) : Counters :=
  { c with
    ticks := c.ticks + 1
    threadTicks := fun t => if t = current then c.threadTicks t + 1 else c.threadTicks t }

section Calls

variable (w : SchedWorld)

theorem counters_setThread (t : UInt64) (thread : McsosThread) :
    counters (w.setThread t thread) =
      { counters w with
        switches := Function.update (counters w).switches t thread.switches
        threadTicks := Function.update (counters w).threadTicks t thread.ticks } := by
  refine Counters.ext rfl rfl ?_ ?_
  · funext x
    simp only [counters, SchedWorld.setThread, Function.update_apply]
    split <;> rfl
  · funext x
    simp only [counters, SchedWorld.setThread, Function.update_apply]
    split <;> rfl

theorem counters_setState (t : UInt64) (state : McsosThreadState) :
    counters (w.setState t state) = counters w := by
  rw [SchedWorld.setState, counters_setThread]
  exact Counters.ext rfl rfl (Function.update_eq_self t _) (Function.update_eq_self t _)

theorem counters_setNext (t next : UInt64) : counters (w.setNext t next) = counters w := by
  rw [SchedWorld.setNext, counters_setThread]
  exact Counters.ext rfl rfl (Function.update_eq_self t _) (Function.update_eq_self t _)

theorem counters_switchTo {old next : UInt64} (hne : next ≠ old) :
    counters (switchTo w old next) = (counters w).switched old next := by
  have hthread : ∀ t, ((switchTo w old next).threads t).switches =
        (if t = old ∨ t = next then (w.threads t).switches + 1 else (w.threads t).switches) ∧
      ((switchTo w old next).threads t).ticks = (w.threads t).ticks := by
    intro t
    simp only [switchTo, SchedWorld.countSwitch, SchedWorld.setState, SchedWorld.setThread,
      Function.update_apply]
    rcases eq_or_ne t next with rfl | hnext
    · simp [hne]
    · rcases eq_or_ne t old with rfl | hold
      · simp [hnext]
      · simp [hnext, hold]
  exact Counters.ext rfl rfl (funext fun t => (hthread t).1) (funext fun t => (hthread t).2)

theorem counters_mcsosSchedEnqueue (t : UInt64) :
    counters (mcsosSchedEnqueue w t).1 = counters w := by
  rw [mcsosSchedEnqueue]
  split
  · rfl
  · split
    · rfl
    · dsimp only
      refine Eq.trans ?_ ((counters_setNext _ t 0).trans (counters_setState w t .ready))
      rw [linkLast]
      split
      · rfl
      · exact counters_setNext ((w.setState t .ready).setNext t 0) _ t

theorem counters_mcsosSchedPickNext : counters (mcsosSchedPickNext w).1 = counters w := by
  rw [mcsosSchedPickNext]
  split
  · rfl
  · dsimp only
    split
    · rfl
    · exact counters_setNext _ _ 0

theorem current_mcsosSchedPickNext :
    (mcsosSchedPickNext w).1.sched.current = w.sched.current := by
  rw [mcsosSchedPickNext]
  split
  · rfl
  · dsimp only
    split <;> rfl

theorem current_mcsosSchedEnqueue (t : UInt64) :
    (mcsosSchedEnqueue w t).1.sched.current = w.sched.current := by
  rw [mcsosSchedEnqueue]
  split
  · rfl
  · split
    · rfl
    · dsimp only [linkLast]
      split <;> rfl

theorem counters_mcsosSchedYield :
    counters (mcsosSchedYield w).1 =
      if (mcsosSchedYield w).1.sched.current = w.sched.current then counters w
      else (counters w).switched w.sched.current (mcsosSchedYield w).1.sched.current := by
  have hpick := counters_mcsosSchedPickNext w
  have hcurrent := current_mcsosSchedPickNext w
  rw [mcsosSchedYield]
  split
  · rw [if_pos rfl]
  · dsimp only
    rcases hnext : mcsosSchedPickNext w with ⟨q, next⟩
    rw [hnext] at hpick hcurrent
    dsimp only at hpick hcurrent ⊢
    split
    · exact hpick
    · split
      case isTrue heq =>
        rw [setState_sched, if_pos hcurrent, counters_setState, hpick]
      case isFalse hne =>
        have hswitch : ∀ w' : SchedWorld, counters w' = counters w →
            counters (switchTo w' w.sched.current next) =
              if (switchTo w' w.sched.current next).sched.current = w.sched.current then counters w
              else (counters w).switched w.sched.current
                (switchTo w' w.sched.current next).sched.current := by
          intro w' heq
          have hnow : (switchTo w' w.sched.current next).sched.current = next := rfl
          rw [hnow, if_neg hne, counters_switchTo w' hne, heq]
        split
        · have hqueue := counters_mcsosSchedEnqueue (q.setState w.sched.current .ready)
            w.sched.current
          have hstays := current_mcsosSchedEnqueue (q.setState w.sched.current .ready)
            w.sched.current
          rw [counters_setState, hpick] at hqueue
          rw [setState_sched, hcurrent] at hstays
          split
          · exact hqueue
          · exact hswitch _ hqueue
        · exact hswitch q hpick

theorem counters_mcsosThreadBlockCurrent :
    counters (mcsosThreadBlockCurrent w).1 =
      if (mcsosThreadBlockCurrent w).1.sched.current = w.sched.current then counters w
      else (counters w).switched w.sched.current
        (mcsosThreadBlockCurrent w).1.sched.current := by
  rw [mcsosThreadBlockCurrent]
  split
  · rw [if_pos rfl]
  · split
    · rw [if_pos rfl]
    · have hyield := counters_mcsosSchedYield (w.setState w.sched.current .blocked)
      rw [counters_setState, setState_sched] at hyield
      exact hyield

theorem current_mcsosThreadMarkReady (t : UInt64) :
    (mcsosThreadMarkReady w t).1.sched.current = w.sched.current := by
  rw [mcsosThreadMarkReady]
  split
  · rfl
  · split
    · rfl
    · exact current_mcsosSchedEnqueue w t

theorem counters_mcsosThreadMarkReady (t : UInt64) :
    counters (mcsosThreadMarkReady w t).1 = counters w := by
  rw [mcsosThreadMarkReady]
  split
  · rfl
  · split
    · rfl
    · exact counters_mcsosSchedEnqueue w t

theorem counters_mcsosThreadPrepare (trampoline t name entry arg stackBase stackSize id : UInt64) :
    (mcsosThreadPrepare trampoline w t name entry arg stackBase stackSize id).2 ≠ .ok ∧
        (mcsosThreadPrepare trampoline w t name entry arg stackBase stackSize id).1 = w ∨
      (mcsosThreadPrepare trampoline w t name entry arg stackBase stackSize id).2 = .ok ∧
        counters (mcsosThreadPrepare trampoline w t name entry arg stackBase stackSize id).1 =
          { counters w with
            switches := Function.update (counters w).switches t 0
            threadTicks := Function.update (counters w).threadTicks t 0 } := by
  unfold mcsosThreadPrepare
  split
  · exact .inl ⟨by simp, rfl⟩
  · split
    · exact .inl ⟨by simp, rfl⟩
    · dsimp only
      split
      · exact .inl ⟨by simp, rfl⟩
      · split
        · exact .inl ⟨by simp, rfl⟩
        · exact .inr ⟨rfl, counters_setThread _ t _⟩

theorem counters_mcsosSchedTick (hinit : w.sched.initialized = true)
    (hcurrent : validThreadObject w w.sched.current = true) :
    counters (mcsosSchedTick w).1 = (counters w).ticked w.sched.current := by
  rw [mcsosSchedTick, if_neg (not_refused hinit hcurrent)]
  dsimp only
  rw [counters_setThread]
  refine Counters.ext rfl rfl (Function.update_eq_self _ _) ?_
  funext t
  simp only [counters, Counters.ticked, Function.update_apply]
  split
  case isTrue heq => rw [heq]
  case isFalse => rfl

end Calls

/-- The line of threads, with the changes of the thread that runs and the threads that the
ticks came to, the last ones first. -/
structure Tally where
  line : Line UInt64
  switched : List (UInt64 × UInt64)
  ticked : List UInt64

def Tally.step (boot : UInt64) (y : Tally) (event : SchedCall × McsosSchedResult) : Tally where
  line := y.line.step boot (moveOf event)
  switched :=
    if (y.line.step boot (moveOf event)).current = y.line.current then y.switched
    else (y.line.current, (y.line.step boot (moveOf event)).current) :: y.switched
  ticked := if event.1 = .tick then y.line.current :: y.ticked else y.ticked

/-- What happens in a run after `mcsos_scheduler_init`. -/
def tally (boot : UInt64) (trace : List (SchedCall × McsosSchedResult)) : Tally :=
  trace.foldl (Tally.step boot) ⟨⟨boot, []⟩, [], []⟩

/-- The thread loses the turn or gets it. -/
def TakesPart (t : UInt64) (change : UInt64 × UInt64) : Bool := t = change.1 ∨ t = change.2

/-- The counters that belong to the events. -/
def Tally.counters (y : Tally) : Counters :=
  ⟨UInt64.ofNat y.switched.length, UInt64.ofNat y.ticked.length,
    fun t => UInt64.ofNat (y.switched.countP (TakesPart t)),
    fun t => UInt64.ofNat (y.ticked.count t)⟩

section Tallies

variable (boot : UInt64) (y : Tally) {event : SchedCall × McsosSchedResult}

theorem Tally.counters_step (htick : event.1 ≠ .tick) :
    (y.step boot event).counters =
      if (y.step boot event).line.current = y.line.current then y.counters
      else y.counters.switched y.line.current (y.step boot event).line.current := by
  have hticked : (y.step boot event).ticked = y.ticked := if_neg htick
  by_cases hstays : (y.step boot event).line.current = y.line.current
  · have hswitched : (y.step boot event).switched = y.switched := if_pos hstays
    rw [if_pos hstays, Tally.counters, Tally.counters, hticked, hswitched]
  · have hswitched : (y.step boot event).switched =
        (y.line.current, (y.step boot event).line.current) :: y.switched := if_neg hstays
    rw [if_neg hstays, Tally.counters, hticked, hswitched]
    refine Counters.ext ?_ rfl ?_ rfl
    · exact UInt64.ofNat_add _ 1
    · funext t
      simp only [List.countP_cons, TakesPart, decide_eq_true_eq, Counters.switched, Tally.counters]
      split
      · exact UInt64.ofNat_add _ 1
      · rfl

theorem Tally.step_tick (result : McsosSchedResult) :
    y.step boot (.tick, result) = ⟨y.line, y.switched, y.line.current :: y.ticked⟩ := by
  have hmove : y.line.step boot (moveOf (.tick, result)) = y.line := rfl
  rw [Tally.step, hmove, if_pos rfl, if_pos rfl]

theorem Tally.counters_tick (result : McsosSchedResult) :
    (y.step boot (.tick, result)).counters = y.counters.ticked y.line.current := by
  rw [Tally.step_tick, Tally.counters]
  refine Counters.ext rfl (UInt64.ofNat_add _ 1) rfl ?_
  funext t
  simp only [List.count_cons, Counters.ticked, Tally.counters, beq_iff_eq, eq_comm (a := t)]
  split
  · exact UInt64.ofNat_add _ 1
  · rfl

theorem Tally.parity_step (h : ∀ t, y.switched.countP (TakesPart t) % 2 = 1 ↔
      (t = y.line.current ↔ t ≠ boot)) (t : UInt64) :
    (y.step boot event).switched.countP (TakesPart t) % 2 = 1 ↔
      (t = (y.step boot event).line.current ↔ t ≠ boot) := by
  by_cases hstays : (y.step boot event).line.current = y.line.current
  · have hswitched : (y.step boot event).switched = y.switched := if_pos hstays
    rw [hswitched, hstays]
    exact h t
  · have hswitched : (y.step boot event).switched =
        (y.line.current, (y.step boot event).line.current) :: y.switched := if_neg hstays
    have hflip : ∀ n, (n + 1) % 2 = 1 ↔ ¬n % 2 = 1 := by
      intro n
      omega
    rw [hswitched, List.countP_cons]
    simp only [TakesPart, decide_eq_true_eq]
    by_cases hold : t = y.line.current
    · have hnew : t ≠ (y.step boot event).line.current := fun hnew => hstays (hnew.symm.trans hold)
      rw [if_pos (.inl hold), hflip, h t]
      tauto
    · by_cases hnew : t = (y.step boot event).line.current
      · rw [if_pos (.inr hnew), hflip, h t]
        tauto
      · rw [if_neg (not_or.mpr ⟨hold, hnew⟩), Nat.add_zero, h t]
        tauto

end Tallies

/-- The counters of these threads and the two counters of the scheduler agree. -/
structure Counters.AgreeOn (threads : List UInt64) (c c' : Counters) : Prop where
  contextSwitches : c.contextSwitches = c'.contextSwitches
  ticks : c.ticks = c'.ticks
  switches : ∀ t ∈ threads, c.switches t = c'.switches t
  threadTicks : ∀ t ∈ threads, c.threadTicks t = c'.threadTicks t

section Agree

variable {threads : List UInt64} {c c' : Counters}

theorem Counters.AgreeOn.switched (h : c.AgreeOn threads c') (old next : UInt64) :
    (c.switched old next).AgreeOn threads (c'.switched old next) := by
  refine ⟨congrArg (· + 1) h.contextSwitches, h.ticks, fun t ht => ?_, h.threadTicks⟩
  simp only [Counters.switched, h.switches t ht]

theorem Counters.AgreeOn.ticked (h : c.AgreeOn threads c') (current : UInt64) :
    (c.ticked current).AgreeOn threads (c'.ticked current) := by
  refine ⟨h.contextSwitches, congrArg (· + 1) h.ticks, h.switches, fun t ht => ?_⟩
  simp only [Counters.ticked, h.threadTicks t ht]

end Agree

/-- The counters of the known threads count the events, and all events are theirs. -/
structure Recorded (boot : UInt64) (r : SchedRun) (y : Tally) : Prop where
  stands : Stands boot r y.line
  known : ∀ change ∈ y.switched,
    change.1 ≠ change.2 ∧ change.1 ∈ boot :: r.prepared ∧ change.2 ∈ boot :: r.prepared
  ticked : ∀ t ∈ y.ticked, t ∈ boot :: r.prepared
  agree : (counters r.world).AgreeOn (boot :: r.prepared) y.counters

section Steps

variable {trampoline boot : UInt64} {r r' : SchedRun} {y : Tally}
  {event : SchedCall × McsosSchedResult}

theorem mem_current {line : Line UInt64} (h : Stands boot r line) :
    line.current ∈ boot :: r.prepared := by
  rw [← h.current]
  exact List.mem_cons.mpr h.inv.current

theorem Recorded.turn (h : Recorded boot r y) (htick : event.1 ≠ .tick)
    (hstands : Stands boot r' (y.line.step boot (moveOf event)))
    (hprepared : r'.prepared = r.prepared)
    (hcounters : counters r'.world =
      if r'.world.sched.current = r.world.sched.current then counters r.world
      else (counters r.world).switched r.world.sched.current r'.world.sched.current) :
    Recorded boot r' (y.step boot event) := by
  have hline : (y.step boot event).line = y.line.step boot (moveOf event) := rfl
  have hticked : (y.step boot event).ticked = y.ticked := if_neg htick
  have hcurrent := mem_current hstands
  rw [hstands.current, h.stands.current] at hcounters
  rw [hprepared] at hcurrent
  refine ⟨hstands, ?_, ?_, ?_⟩
  · rw [hprepared]
    intro change hchange
    rw [Tally.step] at hchange
    dsimp only at hchange
    split at hchange
    case isTrue => exact h.known change hchange
    case isFalse hmoved =>
      rcases List.mem_cons.mp hchange with rfl | hold
      · exact ⟨Ne.symm hmoved, mem_current h.stands, hcurrent⟩
      · exact h.known change hold
  · rw [hticked, hprepared]
    exact h.ticked
  · rw [Tally.counters_step boot y htick, hline, hcounters, hprepared]
    split
    · exact h.agree
    · exact h.agree.switched _ _

theorem Recorded.tick (h : Recorded boot r y) :
    Recorded boot (r.step trampoline .tick).1
      (y.step boot (.tick, (r.step trampoline .tick).2)) := by
  have hcounters : counters (r.step trampoline .tick).1.world =
      (counters r.world).ticked y.line.current := by
    rw [← h.stands.current]
    exact counters_mcsosSchedTick r.world h.stands.inv.queue.initialized
      h.stands.inv.valid_current
  have hprepared : (r.step trampoline .tick).1.prepared = r.prepared := rfl
  refine ⟨h.stands.step trampoline .tick trivial, ?_, ?_, ?_⟩
  · rw [Tally.step_tick, hprepared]
    exact h.known
  · rw [Tally.step_tick, hprepared]
    intro t ht
    rcases List.mem_cons.mp ht with rfl | hold
    · exact mem_current h.stands
    · exact h.ticked t hold
  · rw [Tally.counters_tick, hcounters]
    exact h.agree.ticked _

theorem Recorded.prepare {t name entry arg stackBase stackSize id : UInt64}
    (h : Recorded boot r y) (hallowed : t ∉ r.prepared ∧ t ≠ boot)
    {result : McsosSchedResult} :
    Recorded boot (r.step trampoline (.prepare t name entry arg stackBase stackSize id)).1
      (y.step boot (.prepare t name entry arg stackBase stackSize id, result)) := by
  have hstands := h.stands.step trampoline (.prepare t name entry arg stackBase stackSize id)
    hallowed
  have htally : y.step boot (.prepare t name entry arg stackBase stackSize id, result) = y := by
    have hmove : y.line.step boot
        (moveOf (.prepare t name entry arg stackBase stackSize id, result)) = y.line := rfl
    rw [Tally.step, hmove, if_pos rfl, if_neg (by simp)]
  have hfresh : t ∉ boot :: r.prepared := by
    rw [List.mem_cons, not_or]
    exact ⟨hallowed.2, hallowed.1⟩
  rw [htally]
  rw [SchedRun.step] at hstands ⊢
  dsimp only at hstands ⊢
  rcases counters_mcsosThreadPrepare r.world trampoline t name entry arg stackBase stackSize id with
    ⟨hfail, hsame⟩ | ⟨hok, hcounters⟩
  · rw [if_neg hfail, hsame]
    exact h
  · rw [if_pos hok] at hstands ⊢
    have hmono : ∀ t' ∈ boot :: r.prepared, t' ∈ boot :: t :: r.prepared := by
      intro t' ht'
      rw [List.mem_cons] at ht' ⊢
      exact ht'.imp_right (List.mem_cons_of_mem t)
    refine ⟨hstands, ?_, ?_, ?_⟩
    · intro change hchange
      obtain ⟨hne, hold, hnew⟩ := h.known change hchange
      exact ⟨hne, hmono _ hold, hmono _ hnew⟩
    · exact fun t' ht' => hmono t' (h.ticked t' ht')
    · have hswitches : y.counters.switches t = 0 := by
        refine congrArg UInt64.ofNat (List.countP_eq_zero.mpr ?_)
        intro change hchange htakes
        obtain ⟨-, hold, hnew⟩ := h.known change hchange
        rw [TakesPart, decide_eq_true_eq] at htakes
        rcases htakes with heq | heq
        · exact hfresh (heq ▸ hold)
        · exact hfresh (heq ▸ hnew)
      have hticks : y.counters.threadTicks t = 0 :=
        congrArg UInt64.ofNat (List.count_eq_zero.mpr fun ht => hfresh (h.ticked t ht))
      have hcases : ∀ t' ∈ boot :: t :: r.prepared, t' = t ∨ t' ≠ t ∧ t' ∈ boot :: r.prepared := by
        intro t' ht'
        simp only [List.mem_cons] at ht' ⊢
        tauto
      refine ⟨?_, ?_, ?_, ?_⟩
      · exact (congrArg Counters.contextSwitches hcounters).trans h.agree.contextSwitches
      · exact (congrArg Counters.ticks hcounters).trans h.agree.ticks
      · intro t' ht'
        rw [hcounters]
        rcases hcases t' ht' with rfl | ⟨hne, hmem⟩
        · exact (Function.update_self ..).trans hswitches.symm
        · exact (Function.update_of_ne hne ..).trans (h.agree.switches t' hmem)
      · intro t' ht'
        rw [hcounters]
        rcases hcases t' ht' with rfl | ⟨hne, hmem⟩
        · exact (Function.update_self ..).trans hticks.symm
        · exact (Function.update_of_ne hne ..).trans (h.agree.threadTicks t' hmem)

theorem Recorded.step (trampoline : UInt64) (h : Recorded boot r y) (call : SchedCall)
    (hallowed : r.Allowed boot call) :
    Recorded boot (r.step trampoline call).1 (y.step boot (call, (r.step trampoline call).2)) := by
  have hstands := h.stands.step trampoline call hallowed
  cases call with
  | prepare thread name entry arg stackBase stackSize id => exact h.prepare hallowed
  | enqueue thread =>
      refine h.turn (by simp) hstands rfl ?_
      exact (counters_mcsosSchedEnqueue r.world thread).trans
        (if_pos (current_mcsosSchedEnqueue r.world thread)).symm
  | yield => exact h.turn (by simp) hstands rfl (counters_mcsosSchedYield r.world)
  | blockCurrent => exact h.turn (by simp) hstands rfl (counters_mcsosThreadBlockCurrent r.world)
  | markReady thread =>
      refine h.turn (by simp) hstands rfl ?_
      exact (counters_mcsosThreadMarkReady r.world thread).trans
        (if_pos (current_mcsosThreadMarkReady r.world thread)).symm
  | tick => exact h.tick

end Steps

section Runs

variable {trampoline boot bootName : UInt64} {w : SchedWorld} {r r' : SchedRun} {y : Tally}
  {trace : List (SchedCall × McsosSchedResult)}

theorem Recorded.run (h : Recorded boot r y)
    (hrun : Run (schedSystem trampoline boot) r trace r') :
    Recorded boot r' (trace.foldl (Tally.step boot) y) := by
  induction hrun generalizing y with
  | nil => exact h
  | cons hallowed hstep _ ih =>
      have hnext := h.step trampoline _ hallowed
      rw [Option.some.inj hstep] at hnext
      exact ih hnext

theorem recorded_startRun (hinit : (mcsosSchedulerInit w boot bootName).2 = .ok) :
    Recorded boot (startRun w boot bootName) ⟨⟨boot, []⟩, [], []⟩ := by
  have hboot : boot ≠ 0 := by
    rintro rfl
    cases hinit
  have hprepared : (startRun w boot bootName).prepared = [] := rfl
  have hworld : (startRun w boot bootName).world = (mcsosSchedulerInit w boot bootName).1 := rfl
  refine ⟨stands_startRun hinit, ?_, ?_, ?_⟩
  · exact fun change hchange => absurd hchange List.not_mem_nil
  · exact fun t ht => absurd ht List.not_mem_nil
  · rw [hprepared, hworld, mcsosSchedulerInit, if_neg hboot]
    refine ⟨rfl, rfl, ?_, ?_⟩
    · intro t ht
      obtain rfl := List.mem_singleton.mp ht
      simp [counters, SchedWorld.setThread, Tally.counters]
    · intro t ht
      obtain rfl := List.mem_singleton.mp ht
      simp [counters, SchedWorld.setThread, Tally.counters]

theorem tally_parity (boot : UInt64) (trace : List (SchedCall × McsosSchedResult)) (t : UInt64) :
    (tally boot trace).switched.countP (TakesPart t) % 2 = 1 ↔
      (t = (tally boot trace).line.current ↔ t ≠ boot) := by
  have hall : ∀ y : Tally, (∀ t, y.switched.countP (TakesPart t) % 2 = 1 ↔
      (t = y.line.current ↔ t ≠ boot)) → ∀ t,
        (trace.foldl (Tally.step boot) y).switched.countP (TakesPart t) % 2 = 1 ↔
          (t = (trace.foldl (Tally.step boot) y).line.current ↔ t ≠ boot) := by
    induction trace with
    | nil => exact fun y h => h
    | cons event trace ih => exact fun y h => ih _ (Tally.parity_step boot y h)
  refine hall ⟨⟨boot, []⟩, [], []⟩ (fun t => ?_) t
  simp

theorem sum_takesPart {threads : Finset UInt64} {switched : List (UInt64 × UInt64)}
    (h : ∀ change ∈ switched, change.1 ≠ change.2 ∧ change.1 ∈ threads ∧ change.2 ∈ threads) :
    ∑ t ∈ threads, switched.countP (TakesPart t) = 2 * switched.length := by
  induction switched with
  | nil => simp
  | cons change switched ih =>
      obtain ⟨⟨hne, hold, hnew⟩, hrest⟩ := List.forall_mem_cons.mp h
      have hpair : ∑ t ∈ threads, (if TakesPart t change then 1 else 0) = 2 := by
        have hboth : threads.filter (fun t => TakesPart t change) = {change.1, change.2} := by
          ext t
          simp only [TakesPart, decide_eq_true_eq, Finset.mem_filter, Finset.mem_insert,
            Finset.mem_singleton, and_iff_right_iff_imp]
          rintro (rfl | rfl)
          · exact hold
          · exact hnew
        rw [← Finset.card_filter, hboth, Finset.card_pair hne]
      simp only [List.countP_cons, Finset.sum_add_distrib, ih hrest, hpair, List.length_cons]
      omega

/-- The counters of the scheduler and of its threads are the numbers of the events of the run,
modulo the width of a word; a thread has an odd count when it runs and is not the first one,
or is the first one and does not run; and the counts of the threads add up to those of the
scheduler. -/
theorem run_statistics (hinit : (mcsosSchedulerInit w boot bootName).2 = .ok)
    (hrun : Run (schedSystem trampoline boot) (startRun w boot bootName) trace r) :
    r.world.sched.contextSwitches = UInt64.ofNat (tally boot trace).switched.length ∧
      r.world.sched.ticks = UInt64.ofNat (tally boot trace).ticked.length ∧
      (∀ t ∈ boot :: r.prepared,
        (r.world.threads t).switches =
            UInt64.ofNat ((tally boot trace).switched.countP (TakesPart t)) ∧
          (r.world.threads t).ticks = UInt64.ofNat ((tally boot trace).ticked.count t) ∧
          ((r.world.threads t).switches.toNat % 2 = 1 ↔
            (t = r.world.sched.current ↔ t ≠ boot))) ∧
      (∑ t ∈ (boot :: r.prepared).toFinset, (r.world.threads t).switches.toNat) % 2 ^ 64 =
        2 * r.world.sched.contextSwitches.toNat % 2 ^ 64 ∧
      (∑ t ∈ (boot :: r.prepared).toFinset, (r.world.threads t).ticks.toNat) % 2 ^ 64 =
        r.world.sched.ticks.toNat := by
  have h : Recorded boot r (tally boot trace) := (recorded_startRun hinit).run hrun
  have hcount : ∀ t ∈ (boot :: r.prepared).toFinset, (r.world.threads t).switches.toNat =
      (tally boot trace).switched.countP (TakesPart t) % 2 ^ 64 := by
    intro t ht
    have hswitches := h.agree.switches t (List.mem_toFinset.mp ht)
    exact (congrArg UInt64.toNat hswitches).trans UInt64.toNat_ofNat'
  have hticks : ∀ t ∈ (boot :: r.prepared).toFinset, (r.world.threads t).ticks.toNat =
      (tally boot trace).ticked.count t % 2 ^ 64 := by
    intro t ht
    have hthread := h.agree.threadTicks t (List.mem_toFinset.mp ht)
    exact (congrArg UInt64.toNat hthread).trans UInt64.toNat_ofNat'
  have hcontext : r.world.sched.contextSwitches =
      UInt64.ofNat (tally boot trace).switched.length := h.agree.contextSwitches
  have htotal : r.world.sched.ticks = UInt64.ofNat (tally boot trace).ticked.length :=
    h.agree.ticks
  refine ⟨hcontext, htotal, ?_, ?_, ?_⟩
  · intro t ht
    refine ⟨h.agree.switches t ht, h.agree.threadTicks t ht, ?_⟩
    rw [hcount t (List.mem_toFinset.mpr ht), Nat.mod_mod_of_dvd _ (by decide : 2 ∣ 2 ^ 64),
      h.stands.current]
    exact tally_parity boot trace t
  · rw [Finset.sum_congr rfl hcount, ← Finset.sum_nat_mod, hcontext, UInt64.toNat_ofNat',
      sum_takesPart, Nat.mul_mod_mod]
    intro change hchange
    obtain ⟨hne, hold, hnew⟩ := h.known change hchange
    exact ⟨hne, List.mem_toFinset.mpr hold, List.mem_toFinset.mpr hnew⟩
  · rw [Finset.sum_congr rfl hticks, ← Finset.sum_nat_mod, htotal, UInt64.toNat_ofNat']
    refine congrArg (· % 2 ^ 64) ?_
    have hall : ∀ t ∈ ((tally boot trace).ticked : Multiset UInt64),
        t ∈ (boot :: r.prepared).toFinset :=
      fun t ht => List.mem_toFinset.mpr (h.ticked t (Multiset.mem_coe.mp ht))
    simpa only [Multiset.coe_count, Multiset.coe_card] using Multiset.sum_count_eq_card hall

theorem run_statistics_pairRun :
    pairRun.world.sched.contextSwitches = 1 ∧ (pairRun.world.threads 8192).switches = 1 := by
  obtain ⟨hcontext, -, hthreads, -⟩ := run_statistics (by decide) run_pairRun
  refine ⟨hcontext.trans (by decide), ?_⟩
  exact (hthreads 8192 (by decide)).1.trans (by decide)

end Runs

end Mcsos.SchedulerStatistics
