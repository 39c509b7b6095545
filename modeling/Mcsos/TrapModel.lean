import Mathlib.Data.Set.Basic
import Mcsos.CallSystem
import Mcsos.SerialModel
import Mcsos.StackCode

/-!
The exceptions of `mcsos/kernel/arch/x86_64/idt.c`, `mcsos/kernel/arch/x86_64/isr.S` and
`mcsos/kernel/core/trap.c`, with what the processor does before and behind their code.
-/

namespace Mcsos.TrapModel

open Mcsos.CallSystem
open Mcsos.SerialModel
open Mcsos.StackCode
open Mcsos.WordMachine

inductive Reg where
  | rax
  | rbx
  | rcx
  | rdx
  | rbp
  | rdi
  | rsi
  | rsp
  | r8
  | r9
  | r10
  | r11
  | r12
  | r13
  | r14
  | r15
deriving DecidableEq, Repr

/-- `x86_64_idt_entry_t`. -/
structure IdtEntry where
  offsetLow : UInt16
  selector : UInt16
  ist : UInt8
  typeAttributes : UInt8
  offsetMid : UInt16
  offsetHigh : UInt32
  reserved : UInt32
deriving DecidableEq, Repr

/-- The table has an entry for every value of the index. -/
abbrev Idt := UInt8 → IdtEntry

def kernelCodeSelector : UInt16 := 0x28

def gateInterrupt : UInt8 := 0x8e

def gateTrap : UInt8 := 0x8f

def idtSetGate (idt : Idt) (vector : UInt8) (handler : UInt64) (typeAttributes : UInt8) : Idt :=
  Function.update idt vector
    { offsetLow := (handler &&& 0xffff).toUInt16
      selector := kernelCodeSelector
      ist := 0
      typeAttributes := typeAttributes
      offsetMid := ((handler >>> 16) &&& 0xffff).toUInt16
      offsetHigh := ((handler >>> 32) &&& 0xffffffff).toUInt32
      reserved := 0 }

/-- `x86_64_idtr_t`. -/
structure Idtr where
  limit : UInt16
  base : UInt64
deriving DecidableEq, Repr

/-- The first loop of `x86_64_idt_init`. -/
def clearGates (idt : Idt) : Idt :=
  (List.range 256).foldl (fun idt i => idtSetGate idt (UInt8.ofNat i) 0 0) idt

/-- The second loop, with the addresses of the stubs. -/
def setExceptionGates (stubs : UInt8 → UInt64) (idt : Idt) : Idt :=
  (List.range 32).foldl (fun idt i =>
    let vector := UInt8.ofNat i
    let gateType := if vector = 3 then gateTrap else gateInterrupt
    idtSetGate idt vector (stubs vector) gateType) idt

/-- `x86_64_idt_init` with the table at `base`, and what it logs; both of its assertions are
about sizes that the compiler has fixed. -/
def idtInit (stubs : UInt8 → UInt64) (base : UInt64) (idt : Idt) : Idt × Idtr × List Char :=
  let idt := setExceptionGates stubs (clearGates idt)
  let idtr : Idtr := ⟨256 * 16 - 1, base⟩
  (idt, idtr,
    logKeyValueHex64 "idt_base".toList idtr.base ++
      logKeyValueHex64 "idt_limit".toList idtr.limit.toUInt64 ++
      logWriteln "[M4] IDT loaded".toList)

/-- `x86_64_idt_init` of `src/kernel/arch/x86_64/idt.c`, which has the same gate for every
exception; what it logs goes to `klog_info`, which has no effect, although a comment there says
that the serial console gets it. -/
def idtInitEarly (stubs : UInt8 → UInt64) (base : UInt64) : Idt × Idtr :=
  let cleared : Idt := fun _ => ⟨0, 0, 0, 0, 0, 0, 0⟩
  let idt := (List.range 32).foldl (fun idt i =>
    idtSetGate idt (UInt8.ofNat i) (stubs (UInt8.ofNat i)) 0x8e) cleared
  (idt, ⟨256 * 16 - 1, base⟩)

/-- The descriptors of the segments, which the selectors count in steps of eight. -/
abbrev Gdt := List UInt64

/-- A present segment of 64-bit code for the kernel. -/
def isCode64 (descriptor : UInt64) : Bool :=
  descriptor &&& 0x0060f80000000000 = 0x0020980000000000

def Gdt.hasCode (gdt : Gdt) (selector : UInt16) : Bool :=
  8 ≤ selector && selector &&& 4 = 0 && isCode64 (gdt.getD (selector.toNat / 8) 0)

structure Cpu where
  machine : Machine Reg
  rflags : UInt64
  cs : UInt64
  ss : UInt64

/-- The address that the processor puts together from a gate. -/
def IdtEntry.offset (gate : IdtEntry) : UInt64 :=
  gate.offsetLow.toUInt64 ||| (gate.offsetMid.toUInt64 <<< 16) |||
    (gate.offsetHigh.toUInt64 <<< 32)

def IdtEntry.present (gate : IdtEntry) : Bool := gate.typeAttributes &&& 0x80 ≠ 0

/-- What the processor asks of a gate besides: it is for interrupts or for traps, and leads to
code. -/
def IdtEntry.usable (gdt : Gdt) (gate : IdtEntry) : Bool :=
  gate.typeAttributes &&& 0x9e = 0x8e && Gdt.hasCode gdt gate.selector

/-- The flags in a handler: an interrupt gate clears the flag for interrupts too. -/
def IdtEntry.flags (gate : IdtEntry) (rflags : UInt64) : UInt64 :=
  if gate.typeAttributes &&& 1 = 0 then rflags &&& ~~~0x14300 else rflags &&& ~~~0x14100

/-- The exceptions with an error code, as the manuals of the processors list them. -/
def errorCodeVectors : List UInt8 := [8, 10, 11, 12, 13, 14, 17, 21, 29, 30]

/-- The words that the processor pushes on the aligned stack, in this order. -/
def deliveredWords (vector : UInt8) (errorCode : UInt64) (cpu : Cpu) : List UInt64 :=
  [cpu.ss, cpu.machine.regs .rsp, cpu.rflags, cpu.cs, cpu.machine.rip] ++
    if vector ∈ errorCodeVectors then [errorCode] else []

def alignStack (m : Machine Reg) : Machine Reg := setReg m .rsp (m.regs .rsp &&& ~~~0xf)

/-- An exception or `int` in the kernel, which does not switch the stack.  There is no result
without a gate; whether the gate is `IdtEntry.usable` is left to those who use it. -/
def deliver (idt : Idt) (vector : UInt8) (errorCode : UInt64) (cpu : Cpu) : Option Cpu :=
  let gate := idt vector
  if gate.present then
    let m := pushWords .rsp (alignStack cpu.machine) (deliveredWords vector errorCode cpu)
    some
      { machine := jump m gate.offset
        rflags := gate.flags cpu.rflags
        cs := gate.selector.toUInt64
        ss := cpu.ss }
  else none

/-- An exception with its error code, and whether the processor decides to save the flag RF,
where that is left to it. -/
structure Exception where
  vector : UInt8
  errorCode : UInt64
  resume : Bool
deriving DecidableEq, Repr

/-- The exceptions that are always faults. -/
def faultVectors : List UInt8 := [0, 5, 6, 7, 9, 10, 11, 12, 13, 14, 16, 17, 19, 20, 21]

/-- The exceptions of `int3` and `into`, which are traps. -/
def trapVectors : List UInt8 := [3, 4]

/-- The flags that are saved: a fault sets RF in them, and a trap behind an instruction does
not.  Debug exceptions are of both kinds, and what the others do is not laid down. -/
def Exception.savedFlags (e : Exception) (rflags : UInt64) : UInt64 :=
  if e.vector ∈ faultVectors then rflags ||| 0x10000
  else if e.vector ∈ trapVectors then rflags
  else if e.resume then rflags ||| 0x10000
  else rflags

/-- The processor as an exception saves it. -/
def Exception.saved (e : Exception) (cpu : Cpu) : Cpu :=
  { cpu with rflags := e.savedFlags cpu.rflags }

def iretq (cpu : Cpu) : Cpu :=
  let m := cpu.machine
  let sp := m.regs .rsp
  { machine := jump (setReg m .rsp (m.mem (sp + 24))) (m.mem sp)
    rflags := m.mem (sp + 16)
    cs := m.mem (sp + 8)
    ss := m.mem (sp + 32) }

/-- The macros that make the stubs. -/
inductive IsrMacro where
  | isrNoerr
  | isrErr
deriving DecidableEq, Repr

/-- The macro for each vector from 0 to 31, in the order of the file. -/
def isrMacros : List IsrMacro :=
  [ .isrNoerr, .isrNoerr, .isrNoerr, .isrNoerr, .isrNoerr, .isrNoerr, .isrNoerr, .isrNoerr,
    .isrErr, .isrNoerr, .isrErr, .isrErr, .isrErr, .isrErr, .isrErr, .isrNoerr,
    .isrNoerr, .isrErr, .isrNoerr, .isrNoerr, .isrNoerr, .isrErr, .isrNoerr, .isrNoerr,
    .isrNoerr, .isrNoerr, .isrNoerr, .isrNoerr, .isrNoerr, .isrErr, .isrErr, .isrNoerr ]

/-- `isr_stub_0` to `isr_stub_31`, up to the jump. -/
def isrStub (vector : UInt8) : List (Op Reg) :=
  match isrMacros.getD vector.toNat .isrNoerr with
  | .isrNoerr => [.pushImm 0, .pushImm vector.toUInt64]
  | .isrErr => [.pushImm vector.toUInt64]

/-- `isr_common` up to the call. -/
def isrCommonEntry : List (Op Reg) :=
  [ .push .rax,
    .push .rbx,
    .push .rcx,
    .push .rdx,
    .push .rbp,
    .push .rdi,
    .push .rsi,
    .push .r8,
    .push .r9,
    .push .r10,
    .push .r11,
    .push .r12,
    .push .r13,
    .push .r14,
    .push .r15,
    .mov .rsp .rdi ]

/-- `isr_common` behind the call, up to `iretq`. -/
def isrCommonExit : List (Op Reg) :=
  [ .pop .r15,
    .pop .r14,
    .pop .r13,
    .pop .r12,
    .pop .r11,
    .pop .r10,
    .pop .r9,
    .pop .r8,
    .pop .rsi,
    .pop .rdi,
    .pop .rbp,
    .pop .rdx,
    .pop .rcx,
    .pop .rbx,
    .pop .rax,
    .add 16 .rsp ]

/-- Where the code of the handlers is: the stubs, the call in `isr_common` and what it calls,
and the two instructions of the loop in `kernel_panic_at`. -/
structure IsrImage where
  stubs : UInt8 → UInt64
  trapDispatch : UInt64
  returnAddress : UInt64
  hlt : UInt64
  jmp : UInt64
  stubs_inj : ∀ v < 32, ∀ w < 32, stubs v = stubs w → v = w

/-- The vector whose stub is at an address. -/
def stubAt (image : IsrImage) (address : UInt64) : Option UInt8 :=
  ((List.range 32).map UInt8.ofNat).find? fun vector => image.stubs vector = address

/-- From the exception to the first instruction of `x86_64_trap_dispatch`. -/
def trapEntry (image : IsrImage) (gdt : Gdt) (idt : Idt) (e : Exception) (cpu : Cpu) :
    Option Cpu :=
  if (idt e.vector).usable gdt then do
    let cpu ← deliver idt e.vector e.errorCode (e.saved cpu)
    let stub ← stubAt image cpu.machine.rip
    let m := exec .rsp cpu.machine (isrStub stub ++ isrCommonEntry)
    some { cpu with machine := jump (pushWord .rsp m image.returnAddress) image.trapDispatch }
  else none

/-- From the return of `x86_64_trap_dispatch` to the interrupted code. -/
def trapExit (image : IsrImage) (cpu : Cpu) : Option Cpu :=
  if cpu.machine.rip = image.returnAddress then
    some (iretq { cpu with machine := exec .rsp cpu.machine isrCommonExit })
  else none

/-- `x86_64_trap_frame_t` of `mcsos/arch/idt.h`. -/
structure TrapFrame where
  r15 : UInt64
  r14 : UInt64
  r13 : UInt64
  r12 : UInt64
  r11 : UInt64
  r10 : UInt64
  r9 : UInt64
  r8 : UInt64
  rsi : UInt64
  rdi : UInt64
  rbp : UInt64
  rdx : UInt64
  rcx : UInt64
  rbx : UInt64
  rax : UInt64
  vector : UInt64
  errorCode : UInt64
  rip : UInt64
  cs : UInt64
  rflags : UInt64
deriving DecidableEq, Repr

/-- The words of a frame at an address. -/
def readTrapFrame (mem : UInt64 → UInt64) (address : UInt64) : TrapFrame where
  r15 := mem (address + 0)
  r14 := mem (address + 8)
  r13 := mem (address + 16)
  r12 := mem (address + 24)
  r11 := mem (address + 32)
  r10 := mem (address + 40)
  r9 := mem (address + 48)
  r8 := mem (address + 56)
  rsi := mem (address + 64)
  rdi := mem (address + 72)
  rbp := mem (address + 80)
  rdx := mem (address + 88)
  rcx := mem (address + 96)
  rbx := mem (address + 104)
  rax := mem (address + 112)
  vector := mem (address + 120)
  errorCode := mem (address + 128)
  rip := mem (address + 136)
  cs := mem (address + 144)
  rflags := mem (address + 152)

/-- `x86_64_trap_frame_t` of `src/kernel/arch/x86_64/idt.h`, with the two words that the
processor pushes first. -/
structure TrapFrameEarly extends TrapFrame where
  rsp : UInt64
  ss : UInt64
deriving DecidableEq, Repr

def readTrapFrameEarly (mem : UInt64 → UInt64) (address : UInt64) : TrapFrameEarly where
  toTrapFrame := readTrapFrame mem address
  rsp := mem (address + 160)
  ss := mem (address + 168)

/-- The variable `trap_count`, and what has been sent to the serial port. -/
structure TrapState where
  trapCount : UInt64
  serial : List Char
deriving DecidableEq, Repr

/-- The lines that are logged for every exception. -/
def dumpLines (vector errorCode rip : UInt64) : List Char :=
  logWriteln "--- [TRAP FRAME REGISTER DUMP] ---".toList ++
    logKeyValueHex64 "Trap Vector".toList vector ++
    logKeyValueHex64 "Error Code ".toList errorCode ++
    logKeyValueHex64 "RIP        ".toList rip

def handledLine : List Char :=
  logWriteln "[M4] Breakpoint exception handled correctly. Recovering path...".toList

/-- `x86_64_trap_dispatch`, with whether it returns; otherwise it ends in the loop of
`kernel_panic_at`. -/
def trapDispatch (k : TrapState) (frame : TrapFrame) : TrapState × Bool :=
  let dump := dumpLines frame.vector frame.errorCode frame.rip
  if frame.vector = 3 then
    (⟨k.trapCount + 1, k.serial ++ dump ++ handledLine⟩, true)
  else (⟨k.trapCount + 1, k.serial ++ dump⟩, false)

/-- The stack from `low` to `high`, and the variables that only the code of the handler
uses. -/
structure StackLayout where
  low : UInt64
  high : UInt64
  handlerData : Set UInt64
  handlerData_off_stack : ∀ a ∈ handlerData, ¬(low ≤ a ∧ a < high)

/-- What code with the stack pointer `sp` may write to: the free part of the stack, and its
own variables. -/
def StackLayout.scratch (L : StackLayout) (sp : UInt64) : Set UInt64 :=
  {a | (L.low ≤ a ∧ a < sp) ∨ a ∈ L.handlerData}

/-- What the calling convention promises for a function that returns. -/
structure Returns (L : StackLayout) (before after : Machine Reg) : Prop where
  rip : after.rip = before.mem (before.regs .rsp)
  rsp : after.regs .rsp = before.regs .rsp + 8
  mem : ∀ a, a ∉ L.scratch (before.regs .rsp + 8) → after.mem a = before.mem a

/-- A kernel; when it has halted, its processor is in the loop of `kernel_panic_at`. -/
structure Host where
  cpu : Cpu
  gdt : Gdt
  idt : Idt
  trap : TrapState
  halted : Bool

/-- The kernel executes an instruction, or an exception comes in between; then `after` is the
machine with which the handler returns or comes to the loop. -/
inductive HostAction where
  | instruction
  | exception (e : Exception) (after : Machine Reg)

/-- There is room on the stack for the frame and the return address. -/
def HasRoom (L : StackLayout) (sp : UInt64) : Prop :=
  L.low.toNat + 200 ≤ sp.toNat ∧ sp ≤ L.high

/-- The call of `x86_64_trap_dispatch` on the frame that its first argument points to. -/
def dispatched (trap : TrapState) (cpu : Cpu) : TrapState × Bool :=
  trapDispatch trap (readTrapFrame cpu.machine.mem (cpu.machine.regs .rdi))

def Host.allowed (image : IsrImage) (L : StackLayout) (h : Host) : HostAction → Prop
  | .instruction => True
  | .exception e after =>
      e.vector < 32 ∧ HasRoom L (h.cpu.machine.regs .rsp) ∧
        ∀ cpu, trapEntry image h.gdt h.idt e h.cpu = some cpu →
          if (dispatched h.trap cpu).2 then Returns L cpu.machine after
          else after.rip = image.hlt

/-- The loop of `kernel_panic_at`; exceptions still come to a processor that waits in it. -/
def haltNext (image : IsrImage) (rip : UInt64) : UInt64 :=
  if rip = image.hlt then image.jmp else image.hlt

def Host.step (image : IsrImage) (instruction : Cpu → Cpu) (h : Host) : HostAction → Option Host
  | .instruction =>
      if h.halted then
        some
          { h with
            cpu :=
              { h.cpu with
                machine := jump h.cpu.machine (haltNext image h.cpu.machine.rip) } }
      else some { h with cpu := instruction h.cpu }
  | .exception e after => do
      let cpu ← trapEntry image h.gdt h.idt e h.cpu
      let (trap, returned) := dispatched h.trap cpu
      if returned then
        let cpu ← trapExit image { cpu with machine := after }
        some { h with cpu := cpu, trap := trap }
      else some { h with cpu := { cpu with machine := after }, trap := trap, halted := true }

def hostSystem (image : IsrImage) (L : StackLayout) (instruction : Cpu → Cpu) :
    System Host HostAction Unit where
  allowed := Host.allowed image L
  step h action := (h.step image instruction action).map fun h => (h, ())

end Mcsos.TrapModel
