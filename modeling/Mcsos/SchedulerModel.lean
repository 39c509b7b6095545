import Mathlib.Logic.Function.Basic

/-!
The threads and the scheduler of `mcsos/kernel/mcsos_thread.c`, as compiled for
the host tests.  Pointers are 64-bit addresses, with `0` for a null one; thread
objects and the words of thread stacks live in memories of their own.
-/

namespace Mcsos.SchedulerModel

inductive McsosThreadState where
  | new
  | ready
  | running
  | blocked
  | zombie
deriving DecidableEq, Repr

inductive McsosSchedResult where
  | ok
  | einval
  | estate
  | estack
  | ecorrupt
deriving DecidableEq, Repr

structure McsosContext where
  rsp : UInt64
  rbp : UInt64
  rbx : UInt64
  r12 : UInt64
  r13 : UInt64
  r14 : UInt64
  r15 : UInt64
  rip : UInt64
deriving DecidableEq, Repr

/-- `mcsos_thread_t`. -/
structure McsosThread where
  magic : UInt64
  id : UInt64
  name : UInt64
  state : McsosThreadState
  context : McsosContext
  entry : UInt64
  arg : UInt64
  stackBase : UInt64
  stackSize : UInt64
  next : UInt64
  switches : UInt64
  ticks : UInt64
  exitCode : Int
deriving DecidableEq, Repr

/-- `mcsos_scheduler_t`. -/
structure McsosScheduler where
  current : UInt64
  idle : UInt64
  readyHead : UInt64
  readyTail : UInt64
  nextId : UInt64
  runnableCount : UInt64
  contextSwitches : UInt64
  ticks : UInt64
  initialized : Bool
deriving DecidableEq, Repr

/-- The scheduler with the thread objects and the stack words that it can reach. -/
structure SchedWorld where
  sched : McsosScheduler
  threads : UInt64 → McsosThread
  stack : UInt64 → UInt64

def mcsosThreadMagic : UInt64 := 0x4d43534f53544852

def mcsosMinKernelStack : UInt64 := 4096

def mcsosStackAlign : UInt64 := 16

def zeroContext : McsosContext := ⟨0, 0, 0, 0, 0, 0, 0, 0⟩

def alignDownUintptr (value alignment : UInt64) : UInt64 := value &&& ~~~(alignment - 1)

def SchedWorld.setThread (w : SchedWorld) (t : UInt64) (thread : McsosThread) : SchedWorld :=
  { w with threads := Function.update w.threads t thread }

def SchedWorld.setState (w : SchedWorld) (t : UInt64) (state : McsosThreadState) : SchedWorld :=
  w.setThread t { w.threads t with state := state }

def SchedWorld.setNext (w : SchedWorld) (t next : UInt64) : SchedWorld :=
  w.setThread t { w.threads t with next := next }

def SchedWorld.countSwitch (w : SchedWorld) (t : UInt64) : SchedWorld :=
  w.setThread t { w.threads t with switches := (w.threads t).switches + 1 }

def validThreadObject (w : SchedWorld) (t : UInt64) : Bool :=
  t != 0 && (w.threads t).magic == mcsosThreadMagic

/-- `mcsos_scheduler_init`; `bootName` is the address of the literal `"boot"`. -/
def mcsosSchedulerInit (w : SchedWorld) (bootThread bootName : UInt64) :
    SchedWorld × McsosSchedResult :=
  if bootThread = 0 then (w, .einval)
  else
    let w := w.setThread bootThread
      { magic := mcsosThreadMagic, id := 0, name := bootName, state := .running,
        context := zeroContext, entry := 0, arg := 0, stackBase := 0, stackSize := 0, next := 0,
        switches := 0, ticks := 0, exitCode := 0 }
    ({ w with
        sched :=
          { current := bootThread, idle := bootThread, readyHead := 0, readyTail := 0,
            nextId := 1, runnableCount := 0, contextSwitches := 0, ticks := 0,
            initialized := true } }, .ok)

/-- `mcsos_thread_prepare`; `trampoline` is the address of
`mcsos_thread_trampoline`. -/
def mcsosThreadPrepare (trampoline : UInt64) (w : SchedWorld)
    (thread name entry arg stackBase stackSize id : UInt64) : SchedWorld × McsosSchedResult :=
  if thread = 0 ∨ entry = 0 ∨ stackBase = 0 then (w, .einval)
  else if stackSize < mcsosMinKernelStack then (w, .estack)
  else
    let low := stackBase
    let high := low + stackSize
    if high ≤ low then (w, .estack)
    else
      let top := alignDownUintptr high mcsosStackAlign
      if top ≤ low + 128 then (w, .estack)
      else
        let top := top - 8
        let w := { w with stack := Function.update w.stack top 0 }
        (w.setThread thread
          { magic := mcsosThreadMagic, id := id, name := name, state := .new,
            context := { zeroContext with rsp := top, rip := trampoline }, entry := entry,
            arg := arg, stackBase := stackBase, stackSize := stackSize, next := 0, switches := 0,
            ticks := 0, exitCode := 0 }, .ok)

/-- The stores of `mcsos_sched_enqueue` that put the thread behind the tail. -/
def linkLast (w : SchedWorld) (thread : UInt64) : SchedWorld :=
  if w.sched.readyTail = 0 then
    { w with sched := { w.sched with readyHead := thread, readyTail := thread } }
  else
    let w := w.setNext w.sched.readyTail thread
    { w with sched := { w.sched with readyTail := thread } }

def mcsosSchedEnqueue (w : SchedWorld) (thread : UInt64) : SchedWorld × McsosSchedResult :=
  if w.sched.initialized = false ∨ validThreadObject w thread = false then (w, .einval)
  else if (w.threads thread).state ≠ .new ∧ (w.threads thread).state ≠ .ready ∧
      (w.threads thread).state ≠ .blocked then
    (w, .estate)
  else
    let w := w.setState thread .ready
    let w := w.setNext thread 0
    let w := linkLast w thread
    ({ w with sched := { w.sched with runnableCount := w.sched.runnableCount + 1 } }, .ok)

def mcsosSchedPickNext (w : SchedWorld) : SchedWorld × UInt64 :=
  if w.sched.initialized = false then (w, 0)
  else
    let thread := w.sched.readyHead
    if thread = 0 then (w, w.sched.idle)
    else
      let head := (w.threads thread).next
      let w :=
        { w with
          sched :=
            { w.sched with
              readyHead := head
              readyTail := if head = 0 then 0 else w.sched.readyTail } }
      let w := w.setNext thread 0
      ({ w with
          sched :=
            { w.sched with
              runnableCount :=
                if 0 < w.sched.runnableCount then w.sched.runnableCount - 1
                else w.sched.runnableCount } }, thread)

/-- The end of `mcsos_sched_yield`: `next` runs in the place of `old`. -/
def switchTo (w : SchedWorld) (old next : UInt64) : SchedWorld :=
  let w := w.setState next .running
  let w := { w with sched := { w.sched with current := next } }
  let w := w.countSwitch old
  let w := w.countSwitch next
  { w with sched := { w.sched with contextSwitches := w.sched.contextSwitches + 1 } }

def mcsosSchedYield (w : SchedWorld) : SchedWorld × McsosSchedResult :=
  if w.sched.initialized = false ∨ validThreadObject w w.sched.current = false then (w, .einval)
  else
    let old := w.sched.current
    let (w, next) := mcsosSchedPickNext w
    if validThreadObject w next = false then (w, .ecorrupt)
    else if next = old then (w.setState old .running, .ok)
    else if (w.threads old).state = .running ∧ old ≠ w.sched.idle then
      let (w, rc) := mcsosSchedEnqueue (w.setState old .ready) old
      if rc ≠ .ok then (w, rc) else (switchTo w old next, .ok)
    else (switchTo w old next, .ok)

def mcsosSchedTick (w : SchedWorld) : SchedWorld × McsosSchedResult :=
  if w.sched.initialized = false ∨ validThreadObject w w.sched.current = false then (w, .einval)
  else
    let w := { w with sched := { w.sched with ticks := w.sched.ticks + 1 } }
    let current := w.sched.current
    (w.setThread current
      { w.threads current with ticks := (w.threads current).ticks + 1 }, .ok)

def mcsosThreadBlockCurrent (w : SchedWorld) : SchedWorld × McsosSchedResult :=
  if w.sched.initialized = false ∨ validThreadObject w w.sched.current = false then (w, .einval)
  else if w.sched.current = w.sched.idle then (w, .estate)
  else mcsosSchedYield (w.setState w.sched.current .blocked)

def mcsosThreadMarkReady (w : SchedWorld) (thread : UInt64) : SchedWorld × McsosSchedResult :=
  if validThreadObject w thread = false then (w, .einval)
  else if (w.threads thread).state ≠ .blocked then (w, .estate)
  else mcsosSchedEnqueue w thread

/-- The loop of `mcsos_sched_ready_count`.  It has no result when the `fuel` does not
suffice. -/
def readyCountLoop (w : SchedWorld) (cur count : UInt64) : Nat → Option UInt64
  | 0 => none
  | fuel + 1 =>
      if cur = 0 then some count else readyCountLoop w (w.threads cur).next (count + 1) fuel

def mcsosSchedReadyCount (w : SchedWorld) (fuel : Nat) : Option UInt64 :=
  if w.sched.initialized = false then some 0 else readyCountLoop w w.sched.readyHead 0 fuel

/-- The loop of `mcsos_sched_validate` and the two tests after it.  The loop has no
result when the `fuel` does not suffice. -/
def validateLoop (w : SchedWorld) (cursor last count : UInt64) :
    Nat → Option McsosSchedResult
  | 0 => none
  | fuel + 1 =>
      if cursor = 0 then
        if last ≠ w.sched.readyTail then some .ecorrupt
        else if count ≠ w.sched.runnableCount then some .ecorrupt
        else some .ok
      else if validThreadObject w cursor = false ∨ (w.threads cursor).state ≠ .ready then
        some .ecorrupt
      else if cursor = w.sched.current then some .ecorrupt
      else if count + 1 > w.sched.runnableCount + 1 then some .ecorrupt
      else validateLoop w (w.threads cursor).next cursor (count + 1) fuel

/-- `mcsos_sched_validate`, which visits at most `runnable_count + 2` threads. -/
def mcsosSchedValidate (w : SchedWorld) : Option McsosSchedResult :=
  if w.sched.initialized = false ∨ validThreadObject w w.sched.current = false then some .einval
  else validateLoop w w.sched.readyHead 0 0 (w.sched.runnableCount.toNat + 2)

end Mcsos.SchedulerModel
