import Mcsos.ContextSwitch
import Mcsos.SchedulerLine

/-!
The scheduler and the context switch together, as compiled without `MCSOS_HOST_TEST`: the
thread that runs on the machine calls the functions of `mcsos_thread.c`, and
`mcsos_sched_yield` ends in `mcsos_context_switch`.  What a thread does between its calls is
left open; the trampoline of the source, where it starts, only halts.
-/

namespace Mcsos.SchedulerSwitch

open Mcsos.CallSystem
open Mcsos.ContextModel
open Mcsos.ContextSwitch
open Mcsos.PointerChain
open Mcsos.SchedulerInvariant
open Mcsos.SchedulerLine
open Mcsos.SchedulerModel
open Mcsos.SchedulerQueue
open Mcsos.SchedulerTurns
open Mcsos.TurnQueue
open Mcsos.WordMachine

/-- The words of a context and where they are in it. -/
def contextWords (c : McsosContext) : List (UInt64 × UInt64) :=
  [(0, c.rsp), (8, c.rbp), (16, c.rbx), (24, c.r12), (32, c.r13), (40, c.r14), (48, c.r15),
    (56, c.rip)]

def writeContext (mem : UInt64 → UInt64) (address : UInt64) (c : McsosContext) :
    UInt64 → UInt64 :=
  (contextWords c).foldl (fun mem word => Function.update mem (address + word.1) word.2) mem

/-- The thread objects that the kernel has memory for. -/
abbrev Object (objects : List UInt64) := { t : UInt64 // t ∈ objects }

def objectAt (objects : List UInt64) (a : UInt64) : Option (Object objects) :=
  if h : a ∈ objects then some ⟨a, h⟩ else none

/-- The `context` fields of the thread objects in `run` hold what `mcsos_thread_prepare` has
stored there; the machine has the contexts themselves. -/
structure Host (objects : List UInt64) where
  run : SchedRun
  kernel : Kernel (Object objects)

/-- The running thread computes, or calls the scheduler; the return address is the one that
`mcsos_sched_yield` pushes when it calls the switch. -/
inductive HostAction where
  | compute (machine : Machine Reg)
  | call (call : SchedCall) (returnAddress : UInt64)

section Host

variable {objects : List UInt64}

/-- The stores of `mcsos_thread_prepare` to the stack and the context of the new thread. -/
def newThreadMem (L : Layout (Object objects)) (t : Object objects) (context : McsosContext)
    (mem : UInt64 → UInt64) : UInt64 → UInt64 :=
  writeContext (Function.update mem context.rsp 0) (L.context t) context

/-- The memory after a call that does not switch. -/
def preparedMem (L : Layout (Object objects)) (run : SchedRun) (rc : McsosSchedResult)
    (mem : UInt64 → UInt64) : SchedCall → UInt64 → UInt64
  | .prepare thread _ _ _ _ _ _ =>
      if rc = .ok then
        match objectAt objects thread with
        | some t => newThreadMem L t (run.world.threads thread).context mem
        | none => mem
      else mem
  | _ => mem

def withMem {T : Type} (k : Kernel T) (mem : UInt64 → UInt64) : Kernel T :=
  { k with machine := { k.machine with mem := mem } }

/-- A call of the scheduler.  The switch is the last thing that `mcsos_sched_yield` does, and
is done when another thread has become the current one; the result is then what the call
returns when the thread that made it runs again. -/
def Host.call (program : Program Reg) (L : Layout (Object objects)) (entry trampoline : UInt64)
    (h : Host objects) (c : SchedCall) (returnAddress : UInt64) :
    Option (Host objects × McsosSchedResult) := do
  let (run, rc) := h.run.step trampoline c
  let kernel := withMem h.kernel (preparedMem L run rc h.kernel.machine.mem c)
  if run.world.sched.current = h.run.world.sched.current then some (⟨run, kernel⟩, rc)
  else
    let next ← objectAt objects run.world.sched.current
    let kernel ← kernel.switch program L entry next returnAddress
    some (⟨run, kernel⟩, rc)

/-- The top of the stack that `mcsos_thread_prepare` computes is on the stack of the thread. -/
def PreparesOwn (L : Layout (Object objects)) : SchedCall → Prop
  | .prepare thread _ _ _ stackBase stackSize _ =>
      ∃ t : Object objects, t.val = thread ∧
        alignDownUintptr (stackBase + stackSize) mcsosStackAlign - 8 ∈ L.stack t
  | _ => True

def Host.Allowed (L : Layout (Object objects)) (boot : UInt64) (h : Host objects) :
    HostAction → Prop
  | .compute machine => h.kernel.Allowed L (.compute machine)
  | .call c _ =>
      h.run.Allowed boot c ∧ h.kernel.machine.regs .rsp - 8 ∈ L.stack h.kernel.current ∧
        PreparesOwn L c

def hostSystem (program : Program Reg) (L : Layout (Object objects))
    (entry trampoline boot : UInt64) :
    System (Host objects) HostAction (Option McsosSchedResult) where
  allowed := Host.Allowed L boot
  step h
    | .compute machine => some ({ h with kernel := { h.kernel with machine := machine } }, none)
    | .call c returnAddress =>
        (h.call program L entry trampoline c returnAddress).map fun after =>
          (after.1, some after.2)

/-- The state after `mcsos_scheduler_init`, called on the machine `m` by the boot thread. -/
def startHost (w : SchedWorld) (boot : Object objects) (bootName : UInt64) (m : Machine Reg) :
    Host objects :=
  ⟨startRun w boot.val bootName, startKernel boot m⟩

/-- The moves of the line in a run. -/
def hostMoves (trace : List (HostAction × Option McsosSchedResult)) : List (Move UInt64) :=
  trace.filterMap fun
    | (.call c _, some rc) => some (moveOf (c, rc))
    | _ => none

end Host

section Contexts

variable {objects : List UInt64} {L : Layout (Object objects)} {mem : UInt64 → UInt64}

theorem writeContext_of_ne {address a : UInt64} (ha : ∀ d ∈ contextOffsets, a ≠ address + d)
    (c : McsosContext) : writeContext mem address c a = mem a := by
  simp only [contextOffsets, List.forall_mem_cons] at ha
  obtain ⟨h0, h8, h16, h24, h32, h40, h48, h56, -⟩ := ha
  simp only [writeContext, contextWords, List.foldl_cons, List.foldl_nil]
  rw [Function.update_of_ne h56, Function.update_of_ne h48, Function.update_of_ne h40,
    Function.update_of_ne h32, Function.update_of_ne h24, Function.update_of_ne h16,
    Function.update_of_ne h8, Function.update_of_ne h0]

theorem readContext_writeContext (mem : UInt64 → UInt64) (address : UInt64) (c : McsosContext) :
    readContext (writeContext mem address c) address = c := by
  simp [readContext, writeContext, contextWords]

/-- The scheduler has not touched the contexts in the thread objects. -/
def KeepsContexts (w w' : SchedWorld) : Prop :=
  ∀ t, (w'.threads t).context = (w.threads t).context

theorem KeepsContexts.refl (w : SchedWorld) : KeepsContexts w w := fun _ => rfl

theorem KeepsContexts.trans {w w' w'' : SchedWorld} (h : KeepsContexts w w')
    (h' : KeepsContexts w' w'') : KeepsContexts w w'' := fun t => (h' t).trans (h t)

theorem keepsContexts_setThread {w : SchedWorld} {t : UInt64} {thread : McsosThread}
    (hcontext : thread.context = (w.threads t).context) :
    KeepsContexts w (w.setThread t thread) := by
  intro u
  rw [SchedWorld.setThread]
  dsimp only
  rcases eq_or_ne u t with rfl | hne
  · rw [Function.update_self, hcontext]
  · rw [Function.update_of_ne hne]

theorem keepsContexts_linkLast (w : SchedWorld) (t : UInt64) : KeepsContexts w (linkLast w t) := by
  rw [linkLast]
  split
  · exact .refl w
  · exact keepsContexts_setThread rfl

theorem keepsContexts_enqueue (w : SchedWorld) (t : UInt64) :
    KeepsContexts w (mcsosSchedEnqueue w t).1 := by
  rw [mcsosSchedEnqueue]
  split
  · exact .refl w
  · split
    · exact .refl w
    · have hstate : KeepsContexts w (w.setState t .ready) := keepsContexts_setThread rfl
      have hnext : KeepsContexts (w.setState t .ready) ((w.setState t .ready).setNext t 0) :=
        keepsContexts_setThread rfl
      exact (hstate.trans hnext).trans (keepsContexts_linkLast _ t)

theorem keepsContexts_pickNext (w : SchedWorld) : KeepsContexts w (mcsosSchedPickNext w).1 := by
  rw [mcsosSchedPickNext]
  split
  · exact .refl w
  · dsimp only
    split
    · exact .refl w
    · exact keepsContexts_setThread rfl

theorem keepsContexts_switchTo (w : SchedWorld) (old next : UInt64) :
    KeepsContexts w (switchTo w old next) := by
  have hstate : KeepsContexts w (w.setState next .running) := keepsContexts_setThread rfl
  have hcount : ∀ w t, KeepsContexts w (SchedWorld.countSwitch w t) := fun w t =>
    keepsContexts_setThread rfl
  exact hstate.trans ((hcount _ old).trans (hcount _ next))

theorem keepsContexts_yield (w : SchedWorld) : KeepsContexts w (mcsosSchedYield w).1 := by
  rw [mcsosSchedYield]
  split
  · exact .refl w
  · dsimp only
    have hpick := keepsContexts_pickNext w
    generalize mcsosSchedPickNext w = picked at hpick
    obtain ⟨w', next⟩ := picked
    dsimp only at hpick ⊢
    split
    · exact hpick
    · split
      · exact hpick.trans (keepsContexts_setThread rfl)
      · split
        · have hready : KeepsContexts w' (w'.setState w.sched.current .ready) :=
            keepsContexts_setThread rfl
          have henqueue := hready.trans (keepsContexts_enqueue _ w.sched.current)
          split
          · exact hpick.trans henqueue
          · exact hpick.trans (henqueue.trans (keepsContexts_switchTo _ _ _))
        · exact hpick.trans (keepsContexts_switchTo _ _ _)

theorem keepsContexts_step (trampoline : UInt64) (r : SchedRun) {c : SchedCall}
    (hc : ∀ thread name entry arg base size id, c ≠ .prepare thread name entry arg base size id) :
    KeepsContexts r.world (r.step trampoline c).1.world := by
  cases c with
  | prepare thread name entry arg base size id => exact absurd rfl (hc _ _ _ _ _ _ _)
  | enqueue thread => exact keepsContexts_enqueue r.world thread
  | yield => exact keepsContexts_yield r.world
  | blockCurrent =>
      change KeepsContexts r.world (mcsosThreadBlockCurrent r.world).1
      rw [mcsosThreadBlockCurrent]
      split
      · exact .refl _
      · split
        · exact .refl _
        · have hstate : KeepsContexts r.world (r.world.setState r.world.sched.current .blocked) :=
            keepsContexts_setThread rfl
          exact hstate.trans (keepsContexts_yield _)
  | markReady thread =>
      change KeepsContexts r.world (mcsosThreadMarkReady r.world thread).1
      rw [mcsosThreadMarkReady]
      split
      · exact .refl _
      · split
        · exact .refl _
        · exact keepsContexts_enqueue r.world thread
  | tick =>
      change KeepsContexts r.world (mcsosSchedTick r.world).1
      rw [mcsosSchedTick]
      split
      · exact .refl _
      · exact keepsContexts_setThread rfl

end Contexts

section Switch

variable {T : Type} [DecidableEq T] {L : Layout T} {program : Program Reg}
  {entry label returnAddress : UInt64} {k : Kernel T} {next : T}

/-- The registers with which a thread goes on: those that it is to start with if it never ran,
and else those of the call that it made. -/
def Continues (first : McsosContext) (m : Machine Reg) : ThreadStatus → Prop
  | .fresh => registers m = first
  | .running => False
  | .suspended caller => registers m = caller

omit [DecidableEq T] in
theorem restart {start : UInt64 → UInt64} (h : KernelInv L label start k) :
    KernelInv L label k.machine.mem k := by
  refine ⟨h.running_iff, fun t => ?_⟩
  have hholds := h.holds t
  cases hstatus : k.status t with
  | fresh => rfl
  | running => trivial
  | suspended caller =>
      rw [hstatus] at hholds
      exact hholds

theorem suspend_of_ne (k : Kernel T) (returnAddress : UInt64) (hne : next ≠ k.current) :
    k.suspend returnAddress next = k.status next := Function.update_of_ne hne _ _

theorem switch_spec (h : KernelInv L label k.machine.mem k)
    (hloaded : SwitchLoaded program entry label)
    (hallowed : k.machine.regs .rsp - 8 ∈ L.stack k.current) (hne : next ≠ k.current)
    (returnAddress : UInt64) :
    ∃ m, k.switch program L entry next returnAddress =
        some ⟨m, next, Function.update (k.suspend returnAddress) next .running⟩ ∧
      Continues (readContext k.machine.mem (L.context next)) m (k.status next) ∧
      (∀ t, ∀ a ∈ L.stack t, a ≠ k.machine.regs .rsp - 8 → m.mem a = k.machine.mem a) ∧
      KernelInv L label k.machine.mem
        ⟨m, next, Function.update (k.suspend returnAddress) next .running⟩ := by
  obtain ⟨m, hrun, hcontext, hout, hregisters⟩ :=
    run_mcsosContextSwitch hloaded (m := k.callSwitch L entry next returnAddress) rfl
  have hrdi : (k.callSwitch L entry next returnAddress).regs .rdi = L.context k.current := by
    simp [Kernel.callSwitch, call]
  have hrsi : (k.callSwitch L entry next returnAddress).regs .rsi = L.context next := by
    simp [Kernel.callSwitch, call]
  rw [hrdi] at hcontext hout
  rw [hrsi] at hregisters
  have hholds := h.suspend hallowed hcontext hout
  have hstack : ∀ t, ∀ a ∈ L.stack t, a ≠ k.machine.regs .rsp - 8 → m.mem a = k.machine.mem a := by
    intro t a ha hslot
    rw [hout a fun d hd heq => L.context_off_stack k.current t d hd (heq ▸ ha)]
    refine Function.update_of_ne ?_ _ _
    simpa using hslot
  have hnext := hholds next
  have hsuspend := suspend_of_ne k returnAddress hne
  rw [hsuspend] at hnext
  cases hstatus : k.status next with
  | fresh =>
      rw [hstatus] at hnext
      refine ⟨m, ?_, hregisters.trans hnext, hstack, h.resumed hholds⟩
      simp [Kernel.switch, Kernel.switchMachine, hrun, hsuspend, hstatus]
  | running => exact absurd ((h.running_iff next).mp hstatus) hne
  | suspended caller =>
      rw [hstatus] at hnext
      obtain ⟨m', hstep, hmem, hcaller⟩ := Waits.resume hnext hloaded hregisters
      refine ⟨m', ?_, hcaller, ?_, ?_⟩
      · simp [Kernel.switch, Kernel.switchMachine, hrun, hsuspend, hstatus, hstep]
      · rw [hmem]
        exact hstack
      · refine h.resumed ?_
        rw [hmem]
        exact hholds

end Switch

/-- The scheduler and the machine agree on the thread that runs, and the memory holds what
every other thread needs to go on. -/
structure Hosted {objects : List UInt64} (L : Layout (Object objects)) (label boot : UInt64)
    (h : Host objects) (line : Line UInt64) : Prop where
  stands : Stands boot h.run line
  current : h.kernel.current.val = line.current
  kernel : KernelInv L label h.kernel.machine.mem h.kernel
  listed : ∀ t ∈ h.run.prepared, t ∈ objects
  boot_listed : boot ∈ objects
  boot_started : ∀ t : Object objects, t.val = boot → h.kernel.status t ≠ .fresh
  unprepared : ∀ t : Object objects, t.val ∉ h.run.prepared → t.val ≠ boot →
    h.kernel.status t = .fresh
  first : ∀ t : Object objects, t.val ∈ h.run.prepared → h.kernel.status t = .fresh →
    readContext h.kernel.machine.mem (L.context t) = (h.run.world.threads t.val).context

/-- What a call does on the machine: the same thread goes on with its registers, or another
one does; of the stacks of the threads that have run only the word for the return address is
written. -/
structure Called {objects : List UInt64} (L : Layout (Object objects)) (h h' : Host objects)
    (returnAddress : UInt64) : Prop where
  stack : ∀ t, h.kernel.status t ≠ .fresh → ∀ a ∈ L.stack t,
    a ≠ h.kernel.machine.regs .rsp - 8 → h'.kernel.machine.mem a = h.kernel.machine.mem a
  turn : (h'.kernel.current = h.kernel.current ∧ h'.kernel.status = h.kernel.status ∧
      registers h'.kernel.machine = registers h.kernel.machine) ∨
    (h'.kernel.current ≠ h.kernel.current ∧
      h'.kernel.status =
        Function.update (h.kernel.suspend returnAddress) h'.kernel.current .running ∧
      Continues (h.run.world.threads h'.kernel.current.val).context h'.kernel.machine
        (h.kernel.status h'.kernel.current))

section Invariant

variable {objects : List UInt64} {L : Layout (Object objects)} {program : Program Reg}
  {entry label trampoline boot returnAddress : UInt64} {h : Host objects} {line : Line UInt64}

theorem objectAt_mem {a : UInt64} (ha : a ∈ objects) : objectAt objects a = some ⟨a, ha⟩ :=
  dif_pos ha

theorem mcsosThreadPrepare_context {w : SchedWorld}
    {thread name entry arg stackBase stackSize id : UInt64}
    (hok : (mcsosThreadPrepare trampoline w thread name entry arg stackBase stackSize id).2 = .ok) :
    ((mcsosThreadPrepare trampoline w thread name entry arg stackBase stackSize id).1.threads
      thread).context =
      { zeroContext with
        rsp := alignDownUintptr (stackBase + stackSize) mcsosStackAlign - 8
        rip := trampoline } := by
  unfold mcsosThreadPrepare at hok ⊢
  split at hok
  · cases hok
  case isFalse hargs =>
    rw [if_neg hargs]
    split at hok
    · cases hok
    case isFalse hsize =>
      rw [if_neg hsize]
      dsimp only at hok ⊢
      split at hok
      · cases hok
      case isFalse hwrap =>
        rw [if_neg hwrap]
        split at hok
        · cases hok
        case isFalse htop =>
          rw [if_neg htop]
          simp [SchedWorld.setThread]

theorem step_prepare_cases (trampoline : UInt64) (r : SchedRun)
    (t name entry arg stackBase stackSize id : UInt64) :
    (r.step trampoline (.prepare t name entry arg stackBase stackSize id)).2 ≠ .ok ∧
        (r.step trampoline (.prepare t name entry arg stackBase stackSize id)).1 = r ∨
      ∃ run, r.step trampoline (.prepare t name entry arg stackBase stackSize id) = (run, .ok) ∧
        run.prepared = t :: r.prepared ∧ run.world.sched = r.world.sched ∧
        (∀ u, u ≠ t → run.world.threads u = r.world.threads u) ∧
        (run.world.threads t).context =
          { zeroContext with
            rsp := alignDownUintptr (stackBase + stackSize) mcsosStackAlign - 8
            rip := trampoline } := by
  rw [SchedRun.step]
  dsimp only
  rcases mcsosThreadPrepare_cases r.world trampoline t name entry arg stackBase stackSize id with
    ⟨hfailed, hsame⟩ | ⟨hok, -, object, -, -, hsched, hthreads⟩
  · rw [if_neg hfailed, hsame]
    exact .inl ⟨hfailed, rfl⟩
  · refine .inr ⟨_, Prod.ext rfl hok, if_pos hok, hsched, fun u hne => ?_,
      mcsosThreadPrepare_context hok⟩
    dsimp only
    rw [hthreads, Function.update_of_ne hne]

theorem preparedMem_failed (L : Layout (Object objects)) (run : SchedRun) {rc : McsosSchedResult}
    (hrc : rc ≠ .ok) (mem : UInt64 → UInt64) (c : SchedCall) :
    preparedMem L run rc mem c = mem := by
  cases c with
  | prepare thread name entry arg stackBase stackSize id => exact if_neg hrc
  | enqueue thread => rfl
  | yield => rfl
  | blockCurrent => rfl
  | markReady thread => rfl
  | tick => rfl

theorem kernelInv_withMem {T : Type} {L : Layout T} {k : Kernel T} {mem : UInt64 → UInt64}
    (hkernel : KernelInv L label k.machine.mem k)
    (hcontext : ∀ t, k.status t ≠ .fresh → ∀ d ∈ contextOffsets,
      mem (L.context t + d) = k.machine.mem (L.context t + d))
    (hstack : ∀ t, k.status t ≠ .fresh → ∀ a ∈ L.stack t, mem a = k.machine.mem a) :
    KernelInv L label mem (withMem k mem) := by
  refine ⟨hkernel.running_iff, fun t => ?_⟩
  change Holds L label mem mem t (k.status t)
  cases hstatus : k.status t with
  | fresh => rfl
  | running => trivial
  | suspended caller =>
      have hran : k.status t ≠ .fresh := by
        rw [hstatus]
        simp
      have hwaits := (hkernel.holds t).congr (hcontext t hran) (hstack t hran)
      rw [hstatus] at hwaits
      exact hwaits

theorem newThreadMem_spec {t : Object objects} {context : McsosContext}
    (htop : context.rsp ∈ L.stack t) (mem : UInt64 → UInt64) :
    readContext (newThreadMem L t context mem) (L.context t) = context ∧
      ∀ u, u ≠ t →
        (∀ d ∈ contextOffsets,
          newThreadMem L t context mem (L.context u + d) = mem (L.context u + d)) ∧
        ∀ a ∈ L.stack u, newThreadMem L t context mem a = mem a := by
  refine ⟨readContext_writeContext _ _ _, fun u hne => ⟨fun d hd => ?_, fun a ha => ?_⟩⟩
  · rw [newThreadMem, writeContext_of_ne (L.contexts_apart u t hne d hd), Function.update_of_ne]
    rintro heq
    exact L.context_off_stack u t d hd (heq ▸ htop)
  · rw [newThreadMem, writeContext_of_ne fun d hd heq => L.context_off_stack t u d hd (heq ▸ ha),
      Function.update_of_ne]
    rintro rfl
    exact L.stacks_apart u t hne _ ha htop

theorem Hosted.addThread (hosted : Hosted L label boot h line) {t : Object objects}
    {run : SchedRun} (hstands : Stands boot run line)
    (hallowed : t.val ∉ h.run.prepared ∧ t.val ≠ boot)
    (hrun : run.prepared = t.val :: h.run.prepared)
    (hthreads : ∀ u, u ≠ t.val → run.world.threads u = h.run.world.threads u)
    (htop : (run.world.threads t.val).context.rsp ∈ L.stack t) :
    Hosted L label boot ⟨run, withMem h.kernel
        (newThreadMem L t (run.world.threads t.val).context h.kernel.machine.mem)⟩ line ∧
      ∀ u, h.kernel.status u ≠ .fresh → ∀ a ∈ L.stack u,
        newThreadMem L t (run.world.threads t.val).context h.kernel.machine.mem a =
          h.kernel.machine.mem a := by
  obtain ⟨hread, hothers⟩ := newThreadMem_spec htop h.kernel.machine.mem
  have hfresh : h.kernel.status t = .fresh := hosted.unprepared t hallowed.1 hallowed.2
  have hother : ∀ u, h.kernel.status u ≠ .fresh → u ≠ t := by
    rintro u hran rfl
    exact hran hfresh
  refine ⟨⟨hstands, hosted.current, ?_, ?_, hosted.boot_listed, hosted.boot_started, ?_, ?_⟩, ?_⟩
  · exact kernelInv_withMem hosted.kernel (fun u hran => (hothers u (hother u hran)).1)
      fun u hran => (hothers u (hother u hran)).2
  · intro u hu
    rw [hrun] at hu
    rcases List.mem_cons.mp hu with rfl | hold
    · exact t.property
    · exact hosted.listed u hold
  · intro u hu hboot
    rw [hrun] at hu
    exact hosted.unprepared u (fun hold => hu (List.mem_cons_of_mem _ hold)) hboot
  · intro u hu hran
    rcases eq_or_ne u t with rfl | hne
    · exact hread
    · rw [hrun] at hu
      have hold : u.val ∈ h.run.prepared := by
        rcases List.mem_cons.mp hu with heq | hold
        · exact absurd (Subtype.ext heq) hne
        · exact hold
      dsimp only
      rw [hthreads u.val fun heq => hne (Subtype.ext heq)]
      exact (readContext_congr (hothers u hne).1).trans (hosted.first u hold hran)
  · exact fun u hran => (hothers u (hother u hran)).2

theorem prepared_step (trampoline : UInt64) (r : SchedRun) {c : SchedCall}
    (hc : ∀ thread name entry arg base size id, c ≠ .prepare thread name entry arg base size id) :
    (r.step trampoline c).1.prepared = r.prepared := by
  cases c with
  | prepare thread name entry arg base size id => exact absurd rfl (hc _ _ _ _ _ _ _)
  | enqueue thread => rfl
  | yield => rfl
  | blockCurrent => rfl
  | markReady thread => rfl
  | tick => rfl

theorem preparedMem_of_ne (L : Layout (Object objects)) (run : SchedRun) (rc : McsosSchedResult)
    (mem : UInt64 → UInt64) {c : SchedCall}
    (hc : ∀ thread name entry arg base size id, c ≠ .prepare thread name entry arg base size id) :
    preparedMem L run rc mem c = mem := by
  cases c with
  | prepare thread name entry arg base size id => exact absurd rfl (hc _ _ _ _ _ _ _)
  | enqueue thread => rfl
  | yield => rfl
  | blockCurrent => rfl
  | markReady thread => rfl
  | tick => rfl

theorem Hosted.current_eq (hosted : Hosted L label boot h line) :
    h.kernel.current.val = h.run.world.sched.current :=
  hosted.current.trans hosted.stands.current.symm

theorem fresh_of_switched {T : Type} [DecidableEq T] {k : Kernel T} {next t : T}
    (hstatus : Function.update (k.suspend returnAddress) next .running t = .fresh) :
    t ≠ next ∧ t ≠ k.current ∧ k.status t = .fresh := by
  rcases eq_or_ne t next with rfl | hnext
  · rw [Function.update_self] at hstatus
    cases hstatus
  · rw [Function.update_of_ne hnext] at hstatus
    rcases eq_or_ne t k.current with rfl | hcurrent
    · rw [Kernel.suspend, Function.update_self] at hstatus
      cases hstatus
    · rw [suspend_of_ne k returnAddress hcurrent] at hstatus
      exact ⟨hnext, hcurrent, hstatus⟩

theorem Hosted.switch (hosted : Hosted L label boot h line)
    (hloaded : SwitchLoaded program entry label)
    (hroom : h.kernel.machine.regs .rsp - 8 ∈ L.stack h.kernel.current) {run : SchedRun}
    {line' : Line UInt64} (hstands : Stands boot run line')
    (hprepared : run.prepared = h.run.prepared) (hcontexts : KeepsContexts h.run.world run.world)
    (hmoved : run.world.sched.current ≠ h.run.world.sched.current) :
    ∃ next kernel, objectAt objects run.world.sched.current = some next ∧
      h.kernel.switch program L entry next returnAddress = some kernel ∧
      Hosted L label boot ⟨run, kernel⟩ line' ∧ Called L h ⟨run, kernel⟩ returnAddress := by
  have hstarted : ∀ t : Object objects, t.val = run.world.sched.current ∨ t = h.kernel.current →
      t.val = boot ∨ t.val ∈ h.run.prepared := by
    rintro t (heq | rfl)
    · rw [heq, ← hprepared]
      exact hstands.inv.current
    · rw [hosted.current_eq]
      exact hosted.stands.inv.current
  have hmem : run.world.sched.current ∈ objects := by
    rcases hstands.inv.current with hboot | hin
    · exact hboot ▸ hosted.boot_listed
    · exact hosted.listed _ (hprepared ▸ hin)
  obtain ⟨next, hnext⟩ : ∃ next : Object objects, next = ⟨run.world.sched.current, hmem⟩ :=
    ⟨_, rfl⟩
  have hval : next.val = run.world.sched.current := congrArg Subtype.val hnext
  have hne : next ≠ h.kernel.current := by
    rintro heq
    rw [← hval, heq, hosted.current_eq] at hmoved
    exact hmoved rfl
  obtain ⟨m, hswitch, hcontinues, hstack, hkernel⟩ :=
    switch_spec hosted.kernel hloaded hroom hne returnAddress
  refine ⟨next, _, (objectAt_mem hmem).trans (congrArg some hnext.symm), hswitch, ?_, ?_⟩
  · refine ⟨hstands, hval.trans hstands.current, restart hkernel, ?_, hosted.boot_listed, ?_, ?_,
      ?_⟩
    · rw [hprepared]
      exact hosted.listed
    · intro t ht hstatus
      exact hosted.boot_started t ht (fresh_of_switched hstatus).2.2
    · intro t ht hboot
      have hnone : ¬(t.val = run.world.sched.current ∨ t = h.kernel.current) := by
        intro hstart
        rcases hstarted t hstart with heq | hin
        · exact hboot heq
        · exact ht (hprepared ▸ hin)
      rw [not_or] at hnone
      dsimp only
      rw [Function.update_of_ne fun heq => hnone.1 ((congrArg Subtype.val heq).trans hval),
        suspend_of_ne h.kernel returnAddress hnone.2]
      exact hosted.unprepared t (hprepared ▸ ht) hboot
    · intro t ht hstatus
      have hread := hkernel.holds t
      dsimp only at hread hstatus ⊢
      rw [hstatus] at hread
      rw [hcontexts t.val]
      exact hread.trans (hosted.first t (hprepared ▸ ht) (fresh_of_switched hstatus).2.2)
  · refine ⟨fun t _ => hstack t, .inr ⟨hne, rfl, ?_⟩⟩
    dsimp only
    cases hstatus : h.kernel.status next with
    | fresh =>
        have hin : next.val ∈ h.run.prepared := by
          rcases hstarted next (.inl hval) with hboot | hin
          · exact absurd hstatus (hosted.boot_started next hboot)
          · exact hin
        rw [hstatus] at hcontinues
        exact hcontinues.trans (hosted.first next hin hstatus)
    | running => exact absurd ((hosted.kernel.running_iff next).mp hstatus) hne
    | suspended caller =>
        rw [hstatus] at hcontinues
        exact hcontinues

/-- Every allowed call can be made, and the scheduler and the machine agree after it. -/
theorem Hosted.call (hosted : Hosted L label boot h line) (trampoline : UInt64)
    (hloaded : SwitchLoaded program entry label) {c : SchedCall}
    (hallowed : h.Allowed L boot (.call c returnAddress)) :
    ∃ h', h.call program L entry trampoline c returnAddress =
        some (h', (h.run.step trampoline c).2) ∧
      Hosted L label boot h' (line.step boot (moveOf (c, (h.run.step trampoline c).2))) ∧
      Called L h h' returnAddress := by
  obtain ⟨hcall, hroom, hown⟩ := hallowed
  have hstands := hosted.stands.step trampoline c hcall
  rw [Host.call]
  dsimp only
  by_cases hc : ∃ thread name entry arg base size id,
      c = .prepare thread name entry arg base size id
  · obtain ⟨thread, name, entry, arg, base, size, id, rfl⟩ := hc
    obtain ⟨t, rfl, htop⟩ := hown
    have hmove : ∀ rc, line.step boot
        (moveOf (.prepare t.val name entry arg base size id, rc)) = line := fun _ => rfl
    rw [hmove] at hstands
    rcases step_prepare_cases trampoline h.run t.val name entry arg base size id with
      ⟨hfailed, hsame⟩ | ⟨run, hstep, hprepared, hsched, hthreads, hcontext⟩
    · rw [hsame, if_pos rfl, preparedMem_failed L _ hfailed, hmove]
      exact ⟨_, rfl, hosted, fun _ _ _ _ _ => rfl, .inl ⟨rfl, rfl, rfl⟩⟩
    · rw [hstep] at hstands ⊢
      have hrsp : (run.world.threads t.val).context.rsp ∈ L.stack t := by
        rw [hcontext]
        exact htop
      obtain ⟨hnext, hstack⟩ := hosted.addThread hstands hcall hprepared hthreads hrsp
      dsimp only
      rw [if_pos (by rw [hsched]), hmove, preparedMem, if_pos rfl, objectAt_mem t.property]
      exact ⟨_, rfl, hnext, fun u hran a ha _ => hstack u hran a ha, .inl ⟨rfl, rfl, rfl⟩⟩
  · have hne : ∀ thread name entry arg base size id,
        c ≠ .prepare thread name entry arg base size id :=
      fun thread name entry arg base size id heq => hc ⟨_, _, _, _, _, _, _, heq⟩
    have hprepared := prepared_step trampoline h.run hne
    have hcontexts := keepsContexts_step trampoline h.run hne
    rw [preparedMem_of_ne L _ _ _ hne]
    by_cases hsame : (h.run.step trampoline c).1.world.sched.current = h.run.world.sched.current
    · rw [if_pos hsame]
      refine ⟨_, rfl, ⟨hstands, ?_, hosted.kernel, ?_, hosted.boot_listed, hosted.boot_started, ?_,
        ?_⟩, fun _ _ _ _ _ => rfl, .inl ⟨rfl, rfl, rfl⟩⟩
      · exact hosted.current_eq.trans (hsame.symm.trans hstands.current)
      · rw [hprepared]
        exact hosted.listed
      · rw [hprepared]
        exact hosted.unprepared
      · intro t ht hstatus
        dsimp only
        rw [hcontexts t.val]
        exact hosted.first t (hprepared ▸ ht) hstatus
    · obtain ⟨next, kernel, hobject, hswitch, hnext, hcalled⟩ :=
        hosted.switch hloaded hroom hstands hprepared hcontexts hsame
      rw [if_neg hsame, hobject]
      refine ⟨_, ?_, hnext, hcalled⟩
      change (h.kernel.switch program L entry next returnAddress).bind _ = _
      rw [hswitch]
      rfl

theorem Hosted.compute (hosted : Hosted L label boot h line) {machine : Machine Reg}
    (hallowed : h.kernel.Allowed L (.compute machine)) :
    Hosted L label boot { h with kernel := { h.kernel with machine := machine } } line where
  stands := hosted.stands
  current := hosted.current
  kernel := restart (hosted.kernel.compute hallowed)
  listed := hosted.listed
  boot_listed := hosted.boot_listed
  boot_started := hosted.boot_started
  unprepared := hosted.unprepared
  first t ht hstatus := by
    have hread : readContext machine.mem (L.context t) =
        readContext h.kernel.machine.mem (L.context t) :=
      readContext_congr fun d hd => hallowed _ (.inl ⟨t, d, hd, rfl⟩)
    exact hread.trans (hosted.first t ht hstatus)

end Invariant

section Runs

variable {objects : List UInt64} {L : Layout (Object objects)} {program : Program Reg}
  {entry label trampoline returnAddress : UInt64} {boot t : Object objects} {h h' : Host objects}
  {line : Line UInt64} {before : List (HostAction × Option McsosSchedResult)}

theorem hosted_startHost {w : SchedWorld} {bootName : UInt64} (m : Machine Reg)
    (hinit : (mcsosSchedulerInit w boot.val bootName).2 = .ok) :
    Hosted L label boot.val (startHost w boot bootName m) ⟨boot.val, []⟩ where
  stands := stands_startRun hinit
  current := rfl
  kernel := kernelInv_startKernel boot m
  listed t ht := by cases ht
  boot_listed := boot.property
  boot_started t ht := by
    change (if t = boot then ThreadStatus.running else .fresh) ≠ .fresh
    rw [if_pos (Subtype.ext ht)]
    simp
  unprepared t _ hne := if_neg fun heq => hne (congrArg Subtype.val heq)
  first t ht := by cases ht

/-- The thread waits with the registers `caller`, and its stack is as it was in `mem`. -/
structure Away (L : Layout (Object objects)) (mem : UInt64 → UInt64) (t : Object objects)
    (caller : McsosContext) (h : Host objects) : Prop where
  status : h.kernel.status t = .suspended caller
  stack : ∀ a ∈ L.stack t, h.kernel.machine.mem a = mem a

theorem Hosted.ne_current (hosted : Hosted L label boot.val h line) {mem : UInt64 → UInt64}
    {caller : McsosContext} (haway : Away L mem t caller h) : t ≠ h.kernel.current := by
  rintro rfl
  have hrunning := (hosted.kernel.running_iff h.kernel.current).mpr rfl
  rw [haway.status] at hrunning
  cases hrunning

theorem Away.compute {mem : UInt64 → UInt64} {caller : McsosContext} {machine : Machine Reg}
    (haway : Away L mem t caller h) (hne : t ≠ h.kernel.current)
    (hallowed : h.kernel.Allowed L (.compute machine)) :
    Away L mem t caller { h with kernel := { h.kernel with machine := machine } } :=
  ⟨haway.status, fun a ha => (hallowed a (.inr ⟨t, hne, ha⟩)).trans (haway.stack a ha)⟩

theorem Away.call {mem : UInt64 → UInt64} {caller : McsosContext}
    (haway : Away L mem t caller h) (hne : t ≠ h.kernel.current)
    (hroom : h.kernel.machine.regs .rsp - 8 ∈ L.stack h.kernel.current)
    (hcalled : Called L h h' returnAddress) :
    (h'.kernel.current ≠ t → Away L mem t caller h') ∧
      (h'.kernel.current = t → registers h'.kernel.machine = caller ∧
        ∀ a ∈ L.stack t, h'.kernel.machine.mem a = mem a) := by
  have hran : h.kernel.status t ≠ .fresh := by
    rw [haway.status]
    simp
  have hstack : ∀ a ∈ L.stack t, h'.kernel.machine.mem a = mem a := by
    intro a ha
    rw [hcalled.stack t hran a ha, haway.stack a ha]
    rintro rfl
    exact L.stacks_apart t h.kernel.current hne _ ha hroom
  rcases hcalled.turn with ⟨hsame, hstatus, -⟩ | ⟨hmoved, hstatus, hcontinues⟩
  · refine ⟨fun _ => ⟨?_, hstack⟩, fun heq => absurd (heq.symm.trans hsame) hne⟩
    rw [hstatus]
    exact haway.status
  · refine ⟨fun hother => ⟨?_, hstack⟩, fun heq => ⟨?_, hstack⟩⟩
    · rw [hstatus, Function.update_of_ne hother.symm, suspend_of_ne _ _ hne]
      exact haway.status
    · rw [heq, haway.status] at hcontinues
      exact hcontinues

theorem Called.away (hcalled : Called L h h' returnAddress)
    (hmoved : h'.kernel.current ≠ h.kernel.current) :
    Away L h'.kernel.machine.mem h.kernel.current
      { registers h.kernel.machine with rip := returnAddress } h' := by
  rcases hcalled.turn with ⟨hsame, -⟩ | ⟨-, hstatus, -⟩
  · exact absurd hsame hmoved
  · refine ⟨?_, fun _ _ => rfl⟩
    rw [hstatus, Function.update_of_ne hmoved.symm, Kernel.suspend, Function.update_self]

theorem Hosted.step_cases (hosted : Hosted L label boot.val h line)
    (hloaded : SwitchLoaded program entry label) {action : HostAction}
    {result : Option McsosSchedResult} (hallowed : h.Allowed L boot.val action)
    (hstep : (hostSystem program L entry trampoline boot.val).step h action = some (h', result)) :
    (∃ machine, action = .compute machine ∧ h.kernel.Allowed L (.compute machine) ∧
        result = none ∧ h' = { h with kernel := { h.kernel with machine := machine } } ∧
        Hosted L label boot.val h' line) ∨
      ∃ c returnAddress rc, action = .call c returnAddress ∧ result = some rc ∧
        h.kernel.machine.regs .rsp - 8 ∈ L.stack h.kernel.current ∧
        Hosted L label boot.val h' (line.step boot.val (moveOf (c, rc))) ∧
        Called L h h' returnAddress := by
  cases action with
  | compute machine =>
      cases hstep
      exact .inl ⟨machine, rfl, hallowed, rfl, rfl, hosted.compute hallowed⟩
  | call c returnAddress =>
      obtain ⟨h'', hcall, hnext, hcalled⟩ := hosted.call trampoline hloaded hallowed
      change (h.call program L entry trampoline c returnAddress).map _ = _ at hstep
      rw [hcall] at hstep
      cases hstep
      exact .inr ⟨c, returnAddress, _, rfl, rfl, hallowed.2.1, hnext, hcalled⟩

theorem Hosted.run (hosted : Hosted L label boot.val h line)
    (hloaded : SwitchLoaded program entry label)
    {trace : List (HostAction × Option McsosSchedResult)}
    (hrun : Run (hostSystem program L entry trampoline boot.val) h trace h') :
    Hosted L label boot.val h' (line.run boot.val (hostMoves trace)) := by
  induction hrun generalizing line with
  | nil => exact hosted
  | cons hallowed hstep _ ih =>
      rcases hosted.step_cases hloaded hallowed hstep with
        ⟨machine, rfl, -, rfl, -, hnext⟩ | ⟨c, returnAddress, rc, rfl, rfl, -, hnext, -⟩
      · exact ih hnext
      · exact ih hnext

theorem Hosted.not_waiting (hosted : Hosted L label boot.val h line) {i : Nat}
    (hwaits : line.waiting[i]? = some t.val) : h.kernel.current ≠ t := by
  rintro rfl
  rw [hosted.current_eq] at hwaits
  exact hosted.stands.inv.queue.unlisted _ List.mem_cons_self (List.mem_of_getElem? hwaits)

theorem Away.run {mem : UInt64 → UInt64} {caller : McsosContext}
    (haway : Away L mem t caller h) (hosted : Hosted L label boot.val h line)
    (hloaded : SwitchLoaded program entry label) {i : Nat}
    (hwaits : line.waiting[i]? = some t.val)
    {trace : List (HostAction × Option McsosSchedResult)}
    (hrun : Run (hostSystem program L entry trampoline boot.val) h trace h')
    (hturns : turns (hostMoves trace) ≤ i) : Away L mem t caller h' := by
  induction hrun generalizing line i with
  | nil => exact haway
  | @cons h h₁ h₂ action result trace hallowed hstep _ ih =>
      have hne := hosted.ne_current haway
      rcases hosted.step_cases hloaded hallowed hstep with
        ⟨machine, rfl, hcompute, rfl, rfl, hnext⟩ |
        ⟨c, returnAddress, rc, rfl, rfl, hroom, hnext, hcalled⟩
      · exact ih (haway.compute hne hcompute) hnext hwaits hturns
      · have hmoves : hostMoves ((HostAction.call c returnAddress, some rc) :: trace) =
            moveOf (c, rc) :: hostMoves trace := rfl
        rw [hmoves, turns, List.countP_cons] at hturns
        rcases hmove : (moveOf (c, rc)).isTurn with _ | _
        · rw [hmove] at hturns
          have hstill : (line.step boot.val (moveOf (c, rc))).waiting[i]? = some t.val :=
            Line.waiting_rest hwaits hmove
          exact ih ((haway.call hne hroom hcalled).1 (hnext.not_waiting hstill)) hnext hstill hturns
        · rw [hmove, if_pos rfl] at hturns
          obtain ⟨j, rfl⟩ : ∃ j, i = j + 1 := ⟨i - 1, by omega⟩
          have hcloser : (line.step boot.val (moveOf (c, rc))).waiting[j]? = some t.val :=
            Line.waiting_turn hwaits hmove
          exact ih ((haway.call hne hroom hcalled).1 (hnext.not_waiting hcloser)) hnext hcloser
            (Nat.le_of_add_le_add_right hturns)

/-- In every run, the machine is in the thread that the scheduler says; every allowed call can
be made, and if it gives the turn to another thread, that one starts as it was prepared or
returns from its own call with the registers it had there. -/
theorem run_threads {w : SchedWorld} {bootName : UInt64} {m : Machine Reg}
    (hinit : (mcsosSchedulerInit w boot.val bootName).2 = .ok)
    (hloaded : SwitchLoaded program entry label)
    (hrun : Run (hostSystem program L entry trampoline boot.val) (startHost w boot bootName m)
      before h) :
    h.kernel.current.val = h.run.world.sched.current ∧
      ∀ c returnAddress, h.Allowed L boot.val (.call c returnAddress) →
        ∃ h', h.call program L entry trampoline c returnAddress =
            some (h', (h.run.step trampoline c).2) ∧
          h'.kernel.current.val = (h.run.step trampoline c).1.world.sched.current ∧
          (h'.kernel.current = h.kernel.current ∧
              registers h'.kernel.machine = registers h.kernel.machine ∨
            Continues (h.run.world.threads h'.kernel.current.val).context h'.kernel.machine
              (h.kernel.status h'.kernel.current)) := by
  have hosted := (hosted_startHost m hinit).run hloaded hrun
  refine ⟨hosted.current_eq, fun c returnAddress hallowed => ?_⟩
  obtain ⟨h', hcall, hnext, hcalled⟩ := hosted.call trampoline hloaded hallowed
  have hstands := hosted.stands.step trampoline c hallowed.1
  refine ⟨h', hcall, hnext.current.trans hstands.current.symm, ?_⟩
  rcases hcalled.turn with ⟨hsame, -, hregisters⟩ | ⟨-, -, hcontinues⟩
  · exact .inl ⟨hsame, hregisters⟩
  · exact .inr hcontinues

theorem waiting_rotate {boot : UInt64} {line : Line UInt64} (hboot : line.current ≠ boot) :
    (line.step boot .rotate).waiting[max line.waiting.length 1 - 1]? = some line.current := by
  rw [Line.step, if_neg hboot, Line.advance]
  rcases line.waiting with _ | ⟨t, l⟩
  · rfl
  · have hlast : max (t :: l).length 1 - 1 = l.length := by
      rw [List.length_cons]
      omega
    rw [hlast]
    exact List.getElem?_concat_length

/-- Every yield returns: a thread that yields with the threads of `l` ready does not run for
as many turns, and then goes on behind its call with the registers it had there and with its
stack as it was, whatever the other threads do. -/
theorem run_yield_returns {w : SchedWorld} {bootName : UInt64} {m : Machine Reg}
    (hinit : (mcsosSchedulerInit w boot.val bootName).2 = .ok)
    (hloaded : SwitchLoaded program entry label)
    (hbefore : Run (hostSystem program L entry trampoline boot.val) (startHost w boot bootName m)
      before h)
    {l : List UInt64} (hlist : Linked (fun t => (h.run.world.threads t).next) 0
      h.run.world.sched.readyHead l)
    (hboot : h.kernel.current ≠ boot)
    (hallowed : h.Allowed L boot.val (.call .yield returnAddress)) :
    ∃ h₁, h.call program L entry trampoline .yield returnAddress = some (h₁, .ok) ∧
      ∀ after h₂, Run (hostSystem program L entry trampoline boot.val) h₁ after h₂ →
        (turns (hostMoves after) < max l.length 1 → h₂.kernel.current ≠ h.kernel.current) ∧
        (turns (hostMoves after) + 1 = max l.length 1 →
          ∀ c returnAddress' h₃, c = .yield ∨ c = .blockCurrent →
            h₂.Allowed L boot.val (.call c returnAddress') →
            h₂.call program L entry trampoline c returnAddress' = some (h₃, .ok) →
              h₃.kernel.current = h.kernel.current ∧
              registers h₃.kernel.machine =
                { registers h.kernel.machine with rip := returnAddress } ∧
              ∀ a ∈ L.stack h.kernel.current, a ≠ h.kernel.machine.regs .rsp - 8 →
                h₃.kernel.machine.mem a = h.kernel.machine.mem a) := by
  have hosted := (hosted_startHost m hinit).run hloaded hbefore
  generalize Line.run boot.val ⟨boot.val, []⟩ (hostMoves before) = line at hosted
  have hsame : line.waiting = l := hosted.stands.inv.queue.queue.linked.unique hlist
  have hok : (h.run.step trampoline .yield).2 = .ok := (yield_spec hosted.stands.inv).1
  obtain ⟨h₁, hcall, hosted₁, hcalled⟩ := hosted.call trampoline hloaded hallowed
  rw [hok] at hcall hosted₁
  have hidle : line.current ≠ boot.val := by
    rw [← hosted.current]
    exact fun heq => hboot (Subtype.ext heq)
  have hwaits := waiting_rotate hidle
  rw [hsame, ← hosted.current] at hwaits
  have haway := hcalled.away (hosted₁.not_waiting hwaits)
  have hran : h.kernel.status h.kernel.current ≠ .fresh := by
    rw [(hosted.kernel.running_iff h.kernel.current).mpr rfl]
    simp
  refine ⟨h₁, hcall, fun after h₂ hrun => ⟨fun hturns => ?_, ?_⟩⟩
  · have haway₂ := haway.run hosted₁ hloaded hwaits hrun (by omega)
    exact ((hosted₁.run hloaded hrun).ne_current haway₂).symm
  · intro hturns c returnAddress' h₃ hc hallowed₂ hcall₃
    have hosted₂ := hosted₁.run hloaded hrun
    have haway₂ := haway.run hosted₁ hloaded hwaits hrun (by omega)
    have hfirst := Line.waiting_run boot.val hwaits (by omega : turns (hostMoves after) ≤ _)
    obtain ⟨h₃', hcall', hosted₃, hcalled₃⟩ := hosted₂.call trampoline hloaded hallowed₂
    rw [hcall₃] at hcall'
    obtain ⟨rfl, hrc⟩ := Prod.ext_iff.mp (Option.some.inj hcall')
    have hmove : (moveOf (c, (h₂.run.step trampoline c).2)).isTurn = true := by
      rw [← hrc]
      rcases hc with rfl | rfl
      · rfl
      · rfl
    have hindex : max l.length 1 - 1 - turns (hostMoves after) = 0 := by omega
    rw [hindex] at hfirst
    have hturn := hosted₃.current.trans (Line.current_step hfirst hmove)
    obtain ⟨hregisters, hstack⟩ := (haway₂.call (hosted₂.ne_current haway₂) hallowed₂.2.1
      hcalled₃).2 (Subtype.ext hturn)
    refine ⟨Subtype.ext hturn, hregisters, fun a ha hslot => ?_⟩
    rw [hstack a ha]
    exact hcalled.stack _ hran a ha hslot

end Runs

def pairObjects : List UInt64 := [4096, 8192]

def pairWords (t : UInt64) : List UInt64 := if t = 4096 then [65536] else [131056, 131064]

theorem pairObjects_all {P : UInt64 → UInt64 → Bool} (h : P 4096 8192 = true)
    (h' : P 8192 4096 = true) {t u : Object pairObjects} (hne : t ≠ u) :
    P t.val u.val = true := by
  obtain ⟨t, ht⟩ := t
  obtain ⟨u, hu⟩ := u
  simp only [pairObjects, List.mem_cons, List.not_mem_nil, or_false] at ht hu
  rcases ht with rfl | rfl
  · rcases hu with rfl | rfl
    · exact absurd rfl hne
    · exact h
  · rcases hu with rfl | rfl
    · exact h'
    · exact absurd rfl hne

/-- The boot thread and one other, with contexts in their objects. -/
def pairMemory : Layout (Object pairObjects) where
  context t := t.val + 32
  stack t := { a | a ∈ pairWords t.val }
  contexts_apart t u hne d hd e he := by
    have happart := pairObjects_all (P := fun t u => contextOffsets.all fun d =>
      contextOffsets.all fun e => t + 32 + d != u + 32 + e) (by decide) (by decide) hne
    exact bne_iff_ne.mp (List.all_eq_true.mp (List.all_eq_true.mp happart d hd) e he)
  stacks_apart t u hne a ht hu := by
    have happart := pairObjects_all (P := fun t u => (pairWords t).all fun a =>
      (pairWords u).all fun b => a != b) (by decide) (by decide) hne
    exact bne_iff_ne.mp (List.all_eq_true.mp (List.all_eq_true.mp happart a ht) a hu) rfl
  context_off_stack t u d hd hmem := by
    have happart : (pairObjects.all fun t => pairObjects.all fun u => contextOffsets.all fun d =>
        (pairWords u).all fun a => t + 32 + d != a) = true := by decide
    have hall := List.all_eq_true.mp (List.all_eq_true.mp (List.all_eq_true.mp happart t.val
      t.property) u.val u.property) d hd
    exact bne_iff_ne.mp (List.all_eq_true.mp hall _ hmem) rfl

def bootObject : Object pairObjects := ⟨4096, by decide⟩

def otherObject : Object pairObjects := ⟨8192, by decide⟩

def pairStep (h : Host pairObjects) (action : HostAction) : Host pairObjects :=
  match (hostSystem pairProgram pairMemory 100 256 4096).step h action with
  | some (h', _) => h'
  | none => h

def pairActions : List HostAction :=
  [.call (.prepare 8192 0 64 0 126976 4096 1) 500, .call (.enqueue 8192) 500, .call .yield 500]

def pairWorld : SchedWorld :=
  ⟨⟨0, 0, 0, 0, 0, 0, 0, 0, false⟩,
    fun _ => ⟨0, 0, 0, .new, zeroContext, 0, 0, 0, 0, 0, 0, 0, 0⟩, fun _ => 0⟩

def pairBoot : Host pairObjects :=
  startHost pairWorld bootObject 512 ⟨fun r => if r = .rsp then 65544 else 3, 10, fun _ => 0⟩

theorem init_pairWorld : (mcsosSchedulerInit pairWorld bootObject.val 512).2 = .ok := by decide

/-- The other thread runs, and has computed. -/
def pairHost : Host pairObjects :=
  let h := pairActions.foldl pairStep pairBoot
  pairStep h (.compute
    { h.kernel.machine with regs := fun r => if r = .rsp then 131064 else 9 })

theorem run_pairHost :
    Run (hostSystem pairProgram pairMemory 100 256 4096) pairBoot
      [(.call (.prepare 8192 0 64 0 126976 4096 1) 500, some .ok),
        (.call (.enqueue 8192) 500, some .ok), (.call .yield 500, some .ok),
        (.compute pairHost.kernel.machine, none)] pairHost := by
  have hroom : (65536 : UInt64) ∈ pairWords 4096 := by decide
  refine .cons ?_ rfl (.cons ?_ rfl (.cons ?_ rfl (.cons ?_ rfl (.nil _))))
  · exact ⟨⟨by decide, by decide⟩, hroom, otherObject, rfl,
      (by decide : (131064 : UInt64) ∈ pairWords 8192)⟩
  · exact ⟨⟨by decide, .inl rfl⟩, hroom, trivial⟩
  · exact ⟨trivial, hroom, trivial⟩
  · exact fun _ _ => rfl

theorem allowed_pairHost :
    pairHost.Allowed pairMemory bootObject.val (.call .yield 900) :=
  ⟨trivial, (by decide : (131056 : UInt64) ∈ pairWords 8192), trivial⟩

theorem run_threads_pairHost :
    ∃ h', pairHost.call pairProgram pairMemory 100 256 .yield 900 = some (h', .ok) ∧
      h'.kernel.current = bootObject ∧
      registers h'.kernel.machine = ⟨65544, 3, 3, 3, 3, 3, 3, 500⟩ := by
  obtain ⟨h', hcall, hcurrent, hcontinues⟩ :=
    (run_threads init_pairWorld switchLoaded_pairProgram run_pairHost).2 .yield 900 allowed_pairHost
  have hboot : h'.kernel.current = bootObject := Subtype.ext hcurrent
  rcases hcontinues with ⟨hsame, -⟩ | hregisters
  · rw [hboot] at hsame
    cases congrArg Subtype.val hsame
  · rw [hboot] at hregisters
    exact ⟨h', hcall, hboot, hregisters⟩

theorem run_yield_returns_pairHost :
    ∃ h₁ h₃, pairHost.call pairProgram pairMemory 100 256 .yield 900 = some (h₁, .ok) ∧
      h₁.call pairProgram pairMemory 100 256 .yield 950 = some (h₃, .ok) ∧
      registers h₃.kernel.machine = ⟨131064, 9, 9, 9, 9, 9, 9, 900⟩ := by
  have hlist : Linked (fun t => (pairHost.run.world.threads t).next) 0
      pairHost.run.world.sched.readyHead [] := rfl
  obtain ⟨h₁, hcall, hreturns⟩ := run_yield_returns init_pairWorld switchLoaded_pairProgram
    run_pairHost hlist (fun heq => by cases congrArg Subtype.val heq) allowed_pairHost
  have hstep : pairHost.call pairProgram pairMemory 100 256 .yield 900 =
      some (pairStep pairHost (.call .yield 900), .ok) := rfl
  cases hcall.symm.trans hstep
  refine ⟨_, pairStep (pairStep pairHost (.call .yield 900)) (.call .yield 950), hcall, rfl, ?_⟩
  exact ((hreturns [] _ (.nil _)).2 rfl .yield 950 _ (.inl rfl)
    ⟨trivial, (by decide : (65536 : UInt64) ∈ pairWords 4096), trivial⟩ rfl).2.1

end Mcsos.SchedulerSwitch
