import Mathlib.Data.Set.Basic
import Mcsos.CallSystem
import Mcsos.SchedulerModel
import Mcsos.WordMachine

/-!
The context switch of `mcsos/arch/x86_64/context_switch.S`, and a kernel in which
threads call it.
-/

namespace Mcsos.ContextModel

open Mcsos.CallSystem
open Mcsos.SchedulerModel
open Mcsos.WordMachine

universe u

/-- The registers that the code names. -/
inductive Reg where
  | rax
  | rdi
  | rsi
  | rsp
  | rbp
  | rbx
  | r12
  | r13
  | r14
  | r15
deriving DecidableEq, Repr

/-- `mcsos_context_switch` up to the label `1`, whose address is `label`. -/
def mcsosContextSwitch (label : UInt64) : List (Instr Reg) :=
  [ .lea label .rax,
    .store .rsp 0 .rdi,
    .store .rbp 8 .rdi,
    .store .rbx 16 .rdi,
    .store .r12 24 .rdi,
    .store .r13 32 .rdi,
    .store .r14 40 .rdi,
    .store .r15 48 .rdi,
    .store .rax 56 .rdi,
    .load 0 .rsi .rsp,
    .load 8 .rsi .rbp,
    .load 16 .rsi .rbx,
    .load 24 .rsi .r12,
    .load 32 .rsi .r13,
    .load 40 .rsi .r14,
    .load 48 .rsi .r15,
    .jmp 56 .rsi ]

/-- The function is at `entry` in the program, and behind its jump the label `1` with
the instruction that follows it. -/
structure SwitchLoaded (program : Program Reg) (entry label : UInt64) : Prop where
  body : Block program entry (mcsosContextSwitch label) label
  resume : ∃ next, program label = some (.ret, next)

/-- The words of an `mcsos_context_t` at an address. -/
def readContext (mem : UInt64 → UInt64) (address : UInt64) : McsosContext where
  rsp := mem (address + 0)
  rbp := mem (address + 8)
  rbx := mem (address + 16)
  r12 := mem (address + 24)
  r13 := mem (address + 32)
  r14 := mem (address + 40)
  r15 := mem (address + 48)
  rip := mem (address + 56)

def contextOffsets : List UInt64 := [0, 8, 16, 24, 32, 40, 48, 56]

/-- The registers of the machine that a context has fields for. -/
def registers (m : Machine Reg) : McsosContext where
  rsp := m.regs .rsp
  rbp := m.regs .rbp
  rbx := m.regs .rbx
  r12 := m.regs .r12
  r13 := m.regs .r13
  r14 := m.regs .r14
  r15 := m.regs .r15
  rip := m.rip

/-- Where the contexts and the stacks of the threads are.  No two of them overlap. -/
structure Layout (T : Type u) where
  context : T → UInt64
  stack : T → Set UInt64
  contexts_apart : ∀ t u, t ≠ u → ∀ d ∈ contextOffsets, ∀ e ∈ contextOffsets,
    context t + d ≠ context u + e
  stacks_apart : ∀ t u, t ≠ u → ∀ a ∈ stack t, a ∉ stack u
  context_off_stack : ∀ t u, ∀ d ∈ contextOffsets, context t + d ∉ stack u

/-- A suspended thread has called the switch; its `caller` holds the registers at the
call and the return address. -/
inductive ThreadStatus where
  | fresh
  | running
  | suspended (caller : McsosContext)

structure Kernel (T : Type u) where
  machine : Machine Reg
  current : T
  status : T → ThreadStatus

/-- What the running thread does: it computes, and leaves the machine in any state that
respects the memory of the others, or it calls `mcsos_context_switch`. -/
inductive ThreadAction (T : Type u) where
  | compute (machine : Machine Reg)
  | switch (next : T) (returnAddress : UInt64)

section Kernel

variable {T : Type u} [DecidableEq T]

/-- The machine at the first instruction of `mcsos_context_switch`, called with the
contexts of the running and the next thread. -/
def Kernel.callSwitch (L : Layout T) (entry : UInt64) (k : Kernel T) (next : T)
    (returnAddress : UInt64) : Machine Reg :=
  let regs := Function.update k.machine.regs .rdi (L.context k.current)
  let regs := Function.update regs .rsi (L.context next)
  call .rsp entry returnAddress { k.machine with regs := regs }

/-- The call suspends the running thread. -/
def Kernel.suspend (k : Kernel T) (returnAddress : UInt64) : T → ThreadStatus :=
  Function.update k.status k.current
    (.suspended { registers k.machine with rip := returnAddress })

/-- The code of the switch up to its jump, and for a thread that was suspended there
the instruction behind it. -/
def Kernel.switchMachine (program : Program Reg) (L : Layout T) (entry : UInt64) (k : Kernel T)
    (next : T) (returnAddress : UInt64) : Option (Machine Reg) := do
  let m ← run Reg.rsp program (mcsosContextSwitch 0).length
    (k.callSwitch L entry next returnAddress)
  match k.suspend returnAddress next with
  | .suspended _ => step Reg.rsp program m
  | _ => some m

def Kernel.switch (program : Program Reg) (L : Layout T) (entry : UInt64) (k : Kernel T)
    (next : T) (returnAddress : UInt64) : Option (Kernel T) :=
  (k.switchMachine program L entry next returnAddress).map fun m =>
    ⟨m, next, Function.update (k.suspend returnAddress) next .running⟩

/-- The words of the contexts and of the stacks of other threads. -/
def Layout.Foreign (L : Layout T) (t : T) (a : UInt64) : Prop :=
  (∃ u, ∃ d ∈ contextOffsets, a = L.context u + d) ∨ ∃ u, u ≠ t ∧ a ∈ L.stack u

/-- A thread does not write to foreign words, and its stack has room for the return
address. -/
def Kernel.Allowed (L : Layout T) (k : Kernel T) : ThreadAction T → Prop
  | .compute machine => ∀ a, L.Foreign k.current a → machine.mem a = k.machine.mem a
  | .switch _ _ => k.machine.regs .rsp - 8 ∈ L.stack k.current

def kernelSystem (program : Program Reg) (L : Layout T) (entry : UInt64) :
    System (Kernel T) (ThreadAction T) Unit where
  allowed := Kernel.Allowed L
  step k
    | .compute machine => some ({ k with machine := machine }, ())
    | .switch next returnAddress =>
        (k.switch program L entry next returnAddress).map fun k => (k, ())

/-- One thread runs, and the contexts of the others have been prepared. -/
def startKernel (boot : T) (m : Machine Reg) : Kernel T where
  machine := m
  current := boot
  status t := if t = boot then .running else .fresh

end Kernel

end Mcsos.ContextModel
