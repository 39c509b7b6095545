import Mcsos.ContextModel

namespace Mcsos.ContextSwitch

open Mcsos.CallSystem
open Mcsos.ContextModel
open Mcsos.SchedulerModel
open Mcsos.WordMachine

universe u

/-- The slots that the switch saves to; the last one gets the address of the label. -/
def saveSlots : List (Reg × UInt64) :=
  [(.rsp, 0), (.rbp, 8), (.rbx, 16), (.r12, 24), (.r13, 32), (.r14, 40), (.r15, 48), (.rax, 56)]

/-- The slots that the switch loads from; the jump uses one more. -/
def loadSlots : List (Reg × UInt64) :=
  [(.rsp, 0), (.rbp, 8), (.rbx, 16), (.r12, 24), (.r13, 32), (.r14, 40), (.r15, 48)]

theorem mcsosContextSwitch_eq (label : UInt64) :
    mcsosContextSwitch label =
      [.lea label .rax] ++ stores .rdi saveSlots ++ (loads .rsi loadSlots ++ [.jmp 56 .rsi]) :=
  rfl

theorem readContext_eq {mem : UInt64 → UInt64} {address : UInt64} {regs : Reg → UInt64}
    (h : ∀ slot ∈ saveSlots, mem (address + slot.2) = regs slot.1) :
    readContext mem address =
      ⟨regs .rsp, regs .rbp, regs .rbx, regs .r12, regs .r13, regs .r14, regs .r15,
        regs .rax⟩ := by
  simp only [saveSlots, List.forall_mem_cons] at h
  obtain ⟨hrsp, hrbp, hrbx, hr12, hr13, hr14, hr15, hrax, -⟩ := h
  rw [readContext, hrsp, hrbp, hrbx, hr12, hr13, hr14, hr15, hrax]

theorem readContext_congr {mem mem' : UInt64 → UInt64} {address : UInt64}
    (h : ∀ d ∈ contextOffsets, mem' (address + d) = mem (address + d)) :
    readContext mem' address = readContext mem address := by
  simp only [contextOffsets, List.forall_mem_cons] at h
  obtain ⟨hrsp, hrbp, hrbx, hr12, hr13, hr14, hr15, hrip, -⟩ := h
  rw [readContext, hrsp, hrbp, hrbx, hr12, hr13, hr14, hr15, hrip]
  rfl

variable {program : Program Reg} {entry label : UInt64}

theorem run_save {m : Machine Reg} {stop : UInt64}
    (hblock : Block program m.rip ([.lea label .rax] ++ stores .rdi saveSlots) stop) :
    ∃ m', run .rsp program (1 + saveSlots.length) m = some m' ∧ m'.rip = stop ∧
      m'.regs .rsi = m.regs .rsi ∧
      readContext m'.mem (m.regs .rdi) = { registers m with rip := label } ∧
      ∀ a, (∀ d ∈ contextOffsets, a ≠ m.regs .rdi + d) → m'.mem a = m.mem a := by
  obtain ⟨afterLea, hlea, hstores⟩ := hblock.split
  obtain ⟨next, hstep, rfl⟩ := step_block Reg.rsp hlea
  obtain ⟨m₁, hm₁⟩ : ∃ m₁, (Instr.lea label Reg.rax).exec Reg.rsp next m = m₁ := ⟨_, rfl⟩
  rw [hm₁] at hstep
  have hregs₁ : m₁.regs = Function.update m.regs .rax label := by
    rw [← hm₁]
    rfl
  have hrip₁ : m₁.rip = next := by
    rw [← hm₁]
    rfl
  have hrdi : m₁.regs .rdi = m.regs .rdi := by simp [hregs₁]
  rw [← hrip₁] at hstores
  obtain ⟨m₂, hrun, hregs, hrip, hin, hout⟩ := run_stores Reg.rsp hstores (by decide)
  rw [hrdi] at hin hout
  refine ⟨m₂, ?_, hrip, ?_, ?_, ?_⟩
  · rw [run_add (run_one hstep), hrun]
  · simp [hregs, hregs₁]
  · rw [readContext_eq hin]
    simp [hregs₁, registers]
  · intro a ha
    rw [hout a fun slot hslot => ha slot.2 (List.mem_map_of_mem hslot), ← hm₁]
    rfl

theorem run_restore {m : Machine Reg} {stop : UInt64}
    (hblock : Block program m.rip (loads .rsi loadSlots ++ [.jmp 56 .rsi]) stop) :
    ∃ m', run .rsp program (loadSlots.length + 1) m = some m' ∧ m'.mem = m.mem ∧
      registers m' = readContext m.mem (m.regs .rsi) := by
  obtain ⟨afterLoads, hloads, hjmp⟩ := hblock.split
  obtain ⟨m₁, hrun, hmem, rfl, hin, hout⟩ := run_loads Reg.rsp hloads (by decide) (by decide)
  obtain ⟨next, hstep, -⟩ := step_block Reg.rsp hjmp
  have hrsi : m₁.regs .rsi = m.regs .rsi := hout .rsi (by decide)
  refine ⟨(Instr.jmp 56 Reg.rsi).exec Reg.rsp next m₁, ?_, hmem, ?_⟩
  · rw [run_add hrun, run_one hstep]
  · simp only [loadSlots, List.forall_mem_cons] at hin
    obtain ⟨hrsp, hrbp, hrbx, hr12, hr13, hr14, hr15, -⟩ := hin
    rw [readContext, ← hrsp, ← hrbp, ← hrbx, ← hr12, ← hr13, ← hr14, ← hr15, ← hmem, ← hrsi]
    rfl

/-- `mcsos_context_switch` saves the registers to the first context, changes no other
word, and has the registers of the second context when it jumps. -/
theorem run_mcsosContextSwitch (hloaded : SwitchLoaded program entry label) {m : Machine Reg}
    (hrip : m.rip = entry) :
    ∃ m', run .rsp program (mcsosContextSwitch 0).length m = some m' ∧
      readContext m'.mem (m.regs .rdi) = { registers m with rip := label } ∧
      (∀ a, (∀ d ∈ contextOffsets, a ≠ m.regs .rdi + d) → m'.mem a = m.mem a) ∧
      registers m' = readContext m'.mem (m.regs .rsi) := by
  have hbody := hloaded.body
  rw [mcsosContextSwitch_eq, ← hrip] at hbody
  obtain ⟨middle, hsave, hrestore⟩ := hbody.split
  obtain ⟨m₁, hrun₁, rfl, hrsi, hcontext, hout⟩ := run_save hsave
  obtain ⟨m₂, hrun₂, hmem, hregisters⟩ := run_restore hrestore
  refine ⟨m₂, ?_, ?_, ?_, ?_⟩
  · have hlength : (mcsosContextSwitch 0).length =
        1 + saveSlots.length + (loadSlots.length + 1) := rfl
    rw [hlength, run_add hrun₁, hrun₂]
  · rw [hmem, hcontext]
  · rw [hmem]
    exact hout
  · rw [hregisters, hrsi, hmem]

section Threads

variable {T : Type u} {L : Layout T} {t : T} {start mem mem' : UInt64 → UInt64}

/-- How a suspended thread waits: in its context, for the instruction at the label, with
the return address on its stack. -/
structure Waits (L : Layout T) (label : UInt64) (mem : UInt64 → UInt64) (t : T)
    (caller : McsosContext) : Prop where
  context : readContext mem (L.context t) = { caller with rsp := caller.rsp - 8, rip := label }
  on_stack : caller.rsp - 8 ∈ L.stack t
  returnAddress : mem (caller.rsp - 8) = caller.rip

/-- What the memory holds for a thread that does not run; the context of a fresh one is
as it was at the start. -/
def Holds (L : Layout T) (label : UInt64) (start mem : UInt64 → UInt64) (t : T) :
    ThreadStatus → Prop
  | .fresh => readContext mem (L.context t) = readContext start (L.context t)
  | .running => True
  | .suspended caller => Waits L label mem t caller

theorem Holds.congr {status : ThreadStatus} (h : Holds L label start mem t status)
    (hcontext : ∀ d ∈ contextOffsets, mem' (L.context t + d) = mem (L.context t + d))
    (hstack : ∀ a ∈ L.stack t, mem' a = mem a) : Holds L label start mem' t status := by
  cases status with
  | fresh => exact (readContext_congr hcontext).trans h
  | running => trivial
  | suspended caller =>
      refine ⟨(readContext_congr hcontext).trans h.context, h.on_stack, ?_⟩
      rw [hstack _ h.on_stack, h.returnAddress]

structure KernelInv (L : Layout T) (label : UInt64) (start : UInt64 → UInt64) (k : Kernel T) :
    Prop where
  running_iff : ∀ t, k.status t = .running ↔ t = k.current
  holds : ∀ t, Holds L label start k.machine.mem t (k.status t)

variable {k : Kernel T} {next : T} {returnAddress : UInt64}

theorem kernelInv_startKernel [DecidableEq T] (boot : T) (m : Machine Reg) :
    KernelInv L label m.mem (startKernel boot m) where
  running_iff t := by
    rw [startKernel]
    dsimp only
    split
    · exact iff_of_true rfl ‹_›
    · exact iff_of_false (by simp) ‹_›
  holds t := by
    rw [startKernel]
    dsimp only
    split
    · trivial
    · rfl

theorem KernelInv.compute (h : KernelInv L label start k) {machine : Machine Reg}
    (hallowed : k.Allowed L (.compute machine)) :
    KernelInv L label start { k with machine := machine } := by
  refine ⟨h.running_iff, fun t => ?_⟩
  rcases eq_or_ne t k.current with rfl | hne
  · dsimp only
    rw [(h.running_iff k.current).mpr rfl]
    trivial
  · refine (h.holds t).congr (fun d hd => ?_) fun a ha => ?_
    · exact hallowed _ (.inl ⟨t, d, hd, rfl⟩)
    · exact hallowed a (.inr ⟨t, hne, ha⟩)

variable [DecidableEq T]

theorem KernelInv.suspend (h : KernelInv L label start k)
    (hallowed : k.Allowed L (.switch next returnAddress))
    (hcontext : readContext mem' (L.context k.current) =
      { registers (k.callSwitch L entry next returnAddress) with rip := label })
    (hout : ∀ a, (∀ d ∈ contextOffsets, a ≠ L.context k.current + d) →
      mem' a = (k.callSwitch L entry next returnAddress).mem a) (t : T) :
    Holds L label start mem' t (k.suspend returnAddress t) := by
  have hstack : ∀ u, ∀ a ∈ L.stack u,
      mem' a = (k.callSwitch L entry next returnAddress).mem a := by
    intro u a ha
    exact hout a fun d hd heq => L.context_off_stack k.current u d hd (heq ▸ ha)
  rcases eq_or_ne t k.current with rfl | hne
  · rw [Kernel.suspend, Function.update_self]
    refine ⟨hcontext, hallowed, ?_⟩
    refine (hstack k.current _ hallowed).trans ?_
    exact Function.update_self ..
  · rw [Kernel.suspend, Function.update_of_ne hne]
    have hpushed : ∀ a, a ∉ L.stack k.current →
        (k.callSwitch L entry next returnAddress).mem a = k.machine.mem a := by
      intro a ha
      refine Function.update_of_ne ?_ ..
      rintro rfl
      exact ha hallowed
    refine (h.holds t).congr (fun d hd => ?_) fun a ha => ?_
    · rw [hout _ fun e he => L.contexts_apart t k.current hne d hd e he]
      exact hpushed _ (L.context_off_stack t k.current d hd)
    · rw [hstack t a ha]
      exact hpushed a (L.stacks_apart t k.current hne a ha)

theorem KernelInv.runSwitch (h : KernelInv L label start k)
    (hloaded : SwitchLoaded program entry label)
    (hallowed : k.Allowed L (.switch next returnAddress)) :
    ∃ m, run .rsp program (mcsosContextSwitch 0).length
        (k.callSwitch L entry next returnAddress) = some m ∧
      (∀ t, Holds L label start m.mem t (k.suspend returnAddress t)) ∧
      registers m = readContext m.mem (L.context next) := by
  have hrdi : (k.callSwitch L entry next returnAddress).regs .rdi = L.context k.current := by
    simp [Kernel.callSwitch, call]
  have hrsi : (k.callSwitch L entry next returnAddress).regs .rsi = L.context next := by
    simp [Kernel.callSwitch, call]
  obtain ⟨m, hrun, hcontext, hout, hregisters⟩ :=
    run_mcsosContextSwitch hloaded (m := k.callSwitch L entry next returnAddress) rfl
  rw [hrdi] at hcontext hout
  rw [hrsi] at hregisters
  exact ⟨m, hrun, h.suspend hallowed hcontext hout, hregisters⟩

omit [DecidableEq T] in
theorem Waits.resume {caller : McsosContext} {m : Machine Reg}
    (h : Waits L label m.mem t caller) (hloaded : SwitchLoaded program entry label)
    (hregisters : registers m = readContext m.mem (L.context t)) :
    ∃ m', step .rsp program m = some m' ∧ m'.mem = m.mem ∧ registers m' = caller := by
  obtain ⟨next, hret⟩ := hloaded.resume
  rw [h.context] at hregisters
  obtain ⟨hrsp, hrbp, hrbx, hr12, hr13, hr14, hr15, hrip⟩ := McsosContext.mk.inj hregisters
  refine ⟨Instr.ret.exec Reg.rsp next m, ?_, rfl, ?_⟩
  · rw [step, hrip, hret]
    rfl
  · rw [registers]
    simp only [Instr.exec, Function.update_self, ne_eq, reduceCtorEq, not_false_eq_true,
      Function.update_of_ne, hrsp, hrbp, hrbx, hr12, hr13, hr14, hr15, h.returnAddress,
      UInt64.sub_add_cancel]

theorem KernelInv.suspend_ne_running (h : KernelInv L label start k) (t : T) :
    k.suspend returnAddress t ≠ .running := by
  rw [Kernel.suspend]
  rcases eq_or_ne t k.current with rfl | hne
  · rw [Function.update_self]
    simp
  · rw [Function.update_of_ne hne, ne_eq, h.running_iff]
    exact hne

theorem KernelInv.resumed (h : KernelInv L label start k) {m : Machine Reg}
    (hholds : ∀ t, Holds L label start m.mem t (k.suspend returnAddress t)) :
    KernelInv L label start
      ⟨m, next, Function.update (k.suspend returnAddress) next .running⟩ := by
  refine ⟨fun t => ?_, fun t => ?_⟩
  · rcases eq_or_ne t next with rfl | hne
    · exact iff_of_true (Function.update_self ..) rfl
    · dsimp only
      rw [Function.update_of_ne hne]
      exact iff_of_false (h.suspend_ne_running t) hne
  · rcases eq_or_ne t next with rfl | hne
    · dsimp only
      rw [Function.update_self]
      trivial
    · dsimp only
      rw [Function.update_of_ne hne]
      exact hholds t

theorem KernelInv.switch (h : KernelInv L label start k)
    (hloaded : SwitchLoaded program entry label)
    (hallowed : k.Allowed L (.switch next returnAddress)) {k' : Kernel T}
    (hswitch : k.switch program L entry next returnAddress = some k') :
    KernelInv L label start k' := by
  obtain ⟨m, hrun, hholds, hregisters⟩ := h.runSwitch hloaded hallowed
  obtain ⟨m', hmachine, rfl⟩ := Option.map_eq_some_iff.mp hswitch
  refine h.resumed ?_
  rw [Kernel.switchMachine, hrun] at hmachine
  have hnext := hholds next
  cases hstatus : k.suspend returnAddress next with
  | fresh =>
      simp only [hstatus, Option.bind_eq_bind, Option.bind_some] at hmachine
      cases hmachine
      exact hholds
  | running => exact absurd hstatus (h.suspend_ne_running next)
  | suspended caller =>
      rw [hstatus] at hnext
      obtain ⟨m'', hstep, hmem, -⟩ := Waits.resume hnext hloaded hregisters
      simp only [hstatus, Option.bind_eq_bind, Option.bind_some, hstep] at hmachine
      cases hmachine
      rw [hmem]
      exact hholds

theorem kernelInv_run (hloaded : SwitchLoaded program entry label) {boot : T} {m : Machine Reg}
    {trace : List (ThreadAction T × Unit)}
    (hrun : Run (kernelSystem program L entry) (startKernel boot m) trace k) :
    KernelInv L label m.mem k := by
  refine hrun.invariant (KernelInv L label m.mem) ?_ (kernelInv_startKernel boot m)
  intro k action k' result h hallowed hstep
  cases action with
  | compute machine =>
      cases hstep
      exact h.compute hallowed
  | switch next returnAddress =>
      obtain ⟨k'', hswitch, heq⟩ := Option.map_eq_some_iff.mp hstep
      cases heq
      exact h.switch hloaded hallowed hswitch

/-- Whatever the threads did before, a switch to a thread that never ran starts it with
the registers, the stack pointer and the address in its context, and a switch to a
thread that was switched out returns from the call that this thread made, with the
registers it had there. -/
theorem run_contextSwitch (hloaded : SwitchLoaded program entry label) {boot : T}
    {m : Machine Reg} {trace : List (ThreadAction T × Unit)}
    (hrun : Run (kernelSystem program L entry) (startKernel boot m) trace k)
    (hallowed : k.Allowed L (.switch next returnAddress)) :
    ∃ m', run .rsp program (mcsosContextSwitch 0).length
        (k.callSwitch L entry next returnAddress) = some m' ∧
      match k.suspend returnAddress next with
      | .fresh => registers m' = readContext m.mem (L.context next)
      | .running => False
      | .suspended caller => ∃ m'', step .rsp program m' = some m'' ∧ registers m'' = caller := by
  have h := kernelInv_run hloaded hrun
  obtain ⟨m', hswitch, hholds, hregisters⟩ := h.runSwitch hloaded hallowed
  refine ⟨m', hswitch, ?_⟩
  have hnext := hholds next
  cases hstatus : k.suspend returnAddress next with
  | fresh =>
      rw [hstatus] at hnext
      exact hregisters.trans hnext
  | running => exact h.suspend_ne_running next hstatus
  | suspended caller =>
      rw [hstatus] at hnext
      obtain ⟨m'', hstep, -, hcaller⟩ := Waits.resume hnext hloaded hregisters
      exact ⟨m'', hstep, hcaller⟩

end Threads

def pairContext (t : Bool) : UInt64 := if t then 4096 else 8192

def pairStack (t : Bool) : UInt64 := if t then 65536 else 131072

/-- Two threads with a context and a stack of one word each. -/
def pairLayout : Layout Bool where
  context := pairContext
  stack t := {pairStack t}
  contexts_apart t u hne d hd e he := by
    have happart : ∀ t u, t ≠ u → (contextOffsets.all fun d => contextOffsets.all fun e =>
        pairContext t + d != pairContext u + e) = true := by decide
    have hall := List.all_eq_true.mp (List.all_eq_true.mp (happart t u hne) d hd) e he
    exact bne_iff_ne.mp hall
  stacks_apart t u hne a ht hu := by
    have hinj : ∀ t u, pairStack t = pairStack u → t = u := by decide
    exact hne (hinj t u (ht.symm.trans hu))
  context_off_stack t u d hd hu := by
    have happart : ∀ t u,
        (contextOffsets.all fun d => pairContext t + d != pairStack u) = true := by
      decide
    exact bne_iff_ne.mp (List.all_eq_true.mp (happart t u) d hd) hu

/-- The function at the address `100`, with instructions of length one. -/
def pairProgram (a : UInt64) : Option (Instr Reg × UInt64) :=
  ((mcsosContextSwitch 117 ++ [.ret])[(a - 100).toNat]?).map fun i => (i, a + 1)

theorem switchLoaded_pairProgram : SwitchLoaded pairProgram 100 117 where
  body := ⟨_, rfl, _, rfl, _, rfl, _, rfl, _, rfl, _, rfl, _, rfl, _, rfl, _, rfl, _, rfl, _, rfl,
    _, rfl, _, rfl, _, rfl, _, rfl, _, rfl, _, rfl, rfl⟩
  resume := ⟨118, rfl⟩

/-- The second thread is to start at `777`, and the first one runs. -/
def pairStart : Machine Reg where
  regs r := if r = .rsp then 65544 else 3
  rip := 10
  mem a := if a = 8192 then 131080 else if a = 8248 then 777 else 0

/-- The first thread has switched to the second one, which has changed its registers. -/
def pairKernel : Kernel Bool :=
  let k := startKernel true pairStart
  let k := (k.switch pairProgram pairLayout 100 false 500).getD k
  { k with machine := { k.machine with regs := fun r => if r = .rsp then 131080 else 9 } }

theorem run_pairKernel :
    Run (kernelSystem pairProgram pairLayout 100) (startKernel true pairStart)
      [(.switch false 500, ()), (.compute pairKernel.machine, ())] pairKernel := by
  refine .cons rfl rfl (.cons ?_ rfl (.nil _))
  intro a _
  rfl

theorem run_contextSwitch_pairKernel :
    ∃ m' m'', run .rsp pairProgram (mcsosContextSwitch 0).length
        (pairKernel.callSwitch pairLayout 100 true 900) = some m' ∧
      step .rsp pairProgram m' = some m'' ∧ registers m'' = ⟨65544, 3, 3, 3, 3, 3, 3, 500⟩ := by
  have hallowed : pairKernel.Allowed pairLayout (.switch true 900) := rfl
  obtain ⟨m', hswitch, m'', hstep, hcaller⟩ :=
    run_contextSwitch switchLoaded_pairProgram run_pairKernel hallowed
  exact ⟨m', m'', hswitch, hstep, hcaller⟩

end Mcsos.ContextSwitch
