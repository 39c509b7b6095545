import Mcsos.SyscallModel
import Mcsos.TrapFrames

/-!
The system calls through the gate of `mcsos/kernel/syscall/syscall_entry.S`: what
`x86_64_syscall_int80_stub` hands to `mcsos_syscall_dispatch_frame`, and what its caller gets
back.
-/

namespace Mcsos.SyscallEntry

open Mcsos.CallSystem
open Mcsos.StackCode
open Mcsos.SyscallModel
open Mcsos.TrapFrames
open Mcsos.TrapModel
open Mcsos.WordMachine

/-- `x86_64_syscall_int80_stub` between `cld` and the call. -/
def int80StubEntry : List (Op Reg) :=
  [ .sub 64 .rsp,
    .store .rax 0 .rsp,
    .store .rdi 8 .rsp,
    .store .rsi 16 .rsp,
    .store .rdx 24 .rsp,
    .store .r10 32 .rsp,
    .store .r8 40 .rsp,
    .store .r9 48 .rsp,
    .storeImm 0 56 .rsp,
    .mov .rsp .rdi ]

/-- The stub behind the call, up to `iretq`. -/
def int80StubExit : List (Op Reg) :=
  [ .load 56 .rsp .rax,
    .add 64 .rsp ]

/-- The words of an `mcsos_syscall_frame_t` at an address. -/
def readSyscallFrame (mem : UInt64 → UInt64) (address : UInt64) : McsosSyscallFrame where
  nr := mem (address + 0)
  args :=
    { arg0 := mem (address + 8)
      arg1 := mem (address + 16)
      arg2 := mem (address + 24)
      arg3 := mem (address + 32)
      arg4 := mem (address + 40)
      arg5 := mem (address + 48) }
  ret := (mem (address + 56)).toInt64

/-- From `int $0x80` to the call of `mcsos_syscall_dispatch_frame`, with the stub at
`entry`.  The assumption is that a gate that is present is `IdtEntry.usable`. -/
def int80Entry (entry : UInt64) (idt : Idt) (cpu : Cpu) : Option Cpu := do
  let cpu ← deliver idt 0x80 0 cpu
  if cpu.machine.rip = entry then
    some
      { cpu with
        machine := exec .rsp cpu.machine int80StubEntry
        rflags := cpu.rflags &&& ~~~0x400 }
  else none

/-- From the return of `mcsos_syscall_dispatch_frame` to the caller. -/
def int80Return (cpu : Cpu) : Cpu :=
  iretq { cpu with machine := exec .rsp cpu.machine int80StubExit }

structure CallHost (σ : Type) where
  cpu : Cpu
  idt : Idt
  calls : SyscallState σ

/-- The caller computes, and leaves the processor in any state, or executes `int $0x80`; then
`after` is the machine with which the C function returns. -/
inductive CallAction where
  | compute (cpu : Cpu)
  | int80 (after : Machine Reg)

/-- The number, the arguments and the result of a system call. -/
structure ServedCall where
  nr : UInt64
  args : SyscallArgs
  ret : Int64
deriving DecidableEq, Repr

def calleeSaved : List Reg := [.rbx, .rbp, .rsp, .r12, .r13, .r14, .r15]

/-- What the calling convention promises for `mcsos_syscall_dispatch_frame`, which stores its
result in the frame. -/
structure FrameReturns (L : StackLayout) (before after : Machine Reg) (ret : Int64) : Prop where
  saved : ∀ r ∈ calleeSaved, after.regs r = before.regs r
  ret : after.mem (before.regs .rdi + 56) = ret.toUInt64
  mem : ∀ a, a ∉ L.scratch (before.regs .rsp) → a ≠ before.regs .rdi + 56 →
    after.mem a = before.mem a

section Host

variable {σ : Type}

/-- The call of `mcsos_syscall_dispatch_frame` on the frame that its first argument points
to. -/
def dispatchAt (g : SyscallState σ) (m : Machine Reg) :
    Option (SyscallState σ × ServedCall) := do
  let (g, frame) ←
    mcsosSyscallDispatchFrame g (some (readSyscallFrame m.mem (m.regs .rdi)))
  let frame ← frame
  some (g, ⟨frame.nr, frame.args, frame.ret⟩)

def CallHost.allowed (entry : UInt64) (L : StackLayout) (h : CallHost σ) : CallAction → Prop
  | .compute _ => True
  | .int80 after =>
      HasRoom L (h.cpu.machine.regs .rsp) ∧
        ∀ cpu g served, int80Entry entry h.idt h.cpu = some cpu →
          dispatchAt h.calls cpu.machine = some (g, served) →
          FrameReturns L cpu.machine after served.ret

def CallHost.step (entry : UInt64) (h : CallHost σ) :
    CallAction → Option (CallHost σ × Option ServedCall)
  | .compute cpu => some ({ h with cpu := cpu }, none)
  | .int80 after => do
      let cpu ← int80Entry entry h.idt h.cpu
      let (g, served) ← dispatchAt h.calls cpu.machine
      some ({ h with cpu := int80Return { cpu with machine := after }, calls := g }, some served)

def callSystem (σ : Type) (entry : UInt64) (L : StackLayout) :
    System (CallHost σ) CallAction (Option ServedCall) where
  allowed := CallHost.allowed entry L
  step := CallHost.step entry

end Host

/-- The arguments in the registers of the caller. -/
def callerArgs (cpu : Cpu) : SyscallArgs where
  arg0 := cpu.machine.regs .rdi
  arg1 := cpu.machine.regs .rsi
  arg2 := cpu.machine.regs .rdx
  arg3 := cpu.machine.regs .r10
  arg4 := cpu.machine.regs .r8
  arg5 := cpu.machine.regs .r9

/-- The processor after a system call: the result is in `rax`, and the other registers that a
C function may change are lost. -/
structure Resumed (L : StackLayout) (cpu cpu' : Cpu) (ret : Int64) : Prop where
  rax : cpu'.machine.regs .rax = ret.toUInt64
  saved : ∀ r ∈ calleeSaved, cpu'.machine.regs r = cpu.machine.regs r
  rip : cpu'.machine.rip = cpu.machine.rip
  rflags : cpu'.rflags = cpu.rflags
  cs : cpu'.cs = cpu.cs
  ss : cpu'.ss = cpu.ss
  mem : ∀ a, a ∉ L.scratch (cpu.machine.regs .rsp) → cpu'.machine.mem a = cpu.machine.mem a

/-- A system call as a call of `mcsos_syscall_dispatch` with the registers of the caller. -/
def CallSpec {σ : Type} (L : StackLayout) (s : Cpu × SyscallState σ) :
    CallAction → Option ServedCall → Cpu × SyscallState σ → Prop
  | .compute cpu, result, s' => result = none ∧ s' = (cpu, s.2)
  | .int80 _, result, s' =>
      ∃ ret, mcsosSyscallDispatch s.2 (s.1.machine.regs .rax) (callerArgs s.1) =
          some (s'.2, ret) ∧
        result = some ⟨s.1.machine.regs .rax, callerArgs s.1, ret⟩ ∧ Resumed L s.1 s'.1 ret

/-- The registers in the frame, with their offsets. -/
def int80Slots : List (Reg × UInt64) :=
  [(.rax, 0), (.rdi, 8), (.rsi, 16), (.rdx, 24), (.r10, 32), (.r8, 40), (.r9, 48)]

theorem int80Slots_offset : ∀ slot ∈ int80Slots, ∃ k < 7, slot.2 = 8 * UInt64.ofNat k := by
  decide

/-- What the stub leaves for the C function. -/
structure StubEntered (m m' : Machine Reg) : Prop where
  rsp : m'.regs .rsp = m.regs .rsp - 64
  rdi : m'.regs .rdi = m.regs .rsp - 64
  regs : ∀ r, r ≠ .rsp → r ≠ .rdi → m'.regs r = m.regs r
  slots : ∀ slot ∈ int80Slots, m'.mem (m.regs .rsp - 64 + slot.2) = m.regs slot.1
  ret : m'.mem (m.regs .rsp - 64 + 56) = 0
  mem : ∀ a, (∀ k < 8, a ≠ m.regs .rsp - 64 + 8 * UInt64.ofNat k) → m'.mem a = m.mem a

theorem exec_int80StubEntry (m : Machine Reg) :
    StubEntered m (exec .rsp m int80StubEntry) := by
  let lowered := setReg m .rsp (m.regs .rsp - 64)
  have hsp : lowered.regs .rsp = m.regs .rsp - 64 := setReg_self ..
  have hslot : ∀ slot ∈ int80Slots, lowered.regs slot.1 = m.regs slot.1 := by
    intro slot hmem
    refine setReg_of_ne _ _ ?_
    revert slot
    decide
  obtain ⟨hregs, -, hin, hout⟩ := exec_stores .rsp lowered .rsp int80Slots (by decide)
  have hcode : exec .rsp m int80StubEntry =
      exec .rsp (exec .rsp lowered (int80Slots.map fun slot => .store slot.1 slot.2 .rsp))
        [.storeImm 0 56 .rsp, .mov .rsp .rdi] := rfl
  rw [hcode]
  generalize exec .rsp lowered (int80Slots.map fun slot => .store slot.1 slot.2 .rsp) = stored
    at hregs hin hout ⊢
  have hbase : stored.regs .rsp = m.regs .rsp - 64 := by rw [hregs, hsp]
  have hmem : ∀ a, (exec .rsp stored [.storeImm 0 56 .rsp, .mov .rsp .rdi]).mem a =
      Function.update stored.mem (m.regs .rsp - 64 + 56) 0 a := by
    intro a
    rw [← hbase]
    rfl
  rw [hsp] at hin hout
  refine ⟨?_, ?_, ?_, ?_, ?_, ?_⟩
  · exact (setReg_of_ne _ _ (by decide)).trans hbase
  · exact (setReg_self ..).trans hbase
  · intro r hrsp hrdi
    refine (setReg_of_ne _ _ hrdi).trans ?_
    exact (congrFun hregs r).trans (setReg_of_ne _ _ hrsp)
  · intro slot hslotmem
    have hne : slot.2 ≠ 56 := by
      revert slot
      decide
    rw [hmem, Function.update_of_ne (mt (UInt64.add_right_inj _).mp hne), hin slot hslotmem,
      hslot slot hslotmem]
  · rw [hmem, Function.update_self]
  · intro a ha
    have hlast : a ≠ m.regs .rsp - 64 + 56 := ha 7 (by omega)
    rw [hmem, Function.update_of_ne hlast]
    refine hout a fun slot hslotmem => ?_
    obtain ⟨k, hk, hoffset⟩ := int80Slots_offset slot hslotmem
    rw [hoffset]
    exact ha k (by omega)

/-- The words that `int $0x80` pushes. -/
def int80Words (cpu : Cpu) : List UInt64 :=
  [cpu.ss, cpu.machine.regs .rsp, cpu.rflags, cpu.cs, cpu.machine.rip]

theorem length_int80Words (cpu : Cpu) : (int80Words cpu).length = 5 := rfl

theorem deliveredWords_int80 (cpu : Cpu) : deliveredWords 0x80 0 cpu = int80Words cpu := by
  rw [deliveredWords, if_neg (by decide)]
  rfl

/-- The machine at the call of `mcsos_syscall_dispatch_frame`. -/
structure Int80Entered (cpu cpu' : Cpu) : Prop where
  rsp : cpu'.machine.regs .rsp = (cpu.machine.regs .rsp &&& ~~~0xf) - 8 * UInt64.ofNat 13
  rdi : cpu'.machine.regs .rdi = cpu'.machine.regs .rsp
  saved : ∀ r ∈ calleeSaved, r ≠ .rsp → cpu'.machine.regs r = cpu.machine.regs r
  frame : readSyscallFrame cpu'.machine.mem (cpu'.machine.regs .rdi) =
    ⟨cpu.machine.regs .rax, callerArgs cpu, 0⟩
  iret : words cpu'.machine.mem (cpu'.machine.regs .rsp + 8 * UInt64.ofNat 8) 5 =
    (int80Words cpu).reverse
  mem : ∀ a, (∀ i < 13, a ≠ (cpu.machine.regs .rsp &&& ~~~0xf) - 8 * UInt64.ofNat (i + 1)) →
    cpu'.machine.mem a = cpu.machine.mem a

theorem StubEntered.entered {cpu : Cpu} {entry : UInt64} {m : Machine Reg}
    (h : StubEntered (jump (pushWords .rsp (alignStack cpu.machine) (int80Words cpu)) entry) m)
    (rflags cs ss : UInt64) : Int80Entered cpu ⟨m, rflags, cs, ss⟩ := by
  have halign : (alignStack cpu.machine).regs .rsp = cpu.machine.regs .rsp &&& ~~~0xf := by
    rw [alignStack, setReg_self]
  have hpushed := pushWords_words .rsp (alignStack cpu.machine) (int80Words cpu)
    (n := 0) (by rw [length_int80Words]; decide)
  have hsp := pushWords_sp .rsp (alignStack cpu.machine) (int80Words cpu)
  have hregs : ∀ r, r ≠ .rsp →
      (pushWords .rsp (alignStack cpu.machine) (int80Words cpu)).regs r =
        cpu.machine.regs r := by
    intro r hr
    rw [pushWords_regs _ _ hr, alignStack, setReg_of_ne _ _ hr]
  have hmem := fun a => pushWords_mem .rsp (alignStack cpu.machine) (int80Words cpu) (a := a)
  generalize pushWords .rsp (alignStack cpu.machine) (int80Words cpu) = pushed
    at h hpushed hsp hregs hmem
  have hlow : pushed.regs .rsp - 64 =
      (cpu.machine.regs .rsp &&& ~~~0xf) - 8 * UInt64.ofNat 13 := by
    rw [hsp, halign, sub_sub_eq]
    rfl
  have hslots : ∀ slot ∈ int80Slots, m.mem (pushed.regs .rsp - 64 + slot.2) =
      cpu.machine.regs slot.1 := by
    intro slot hslot
    refine (h.slots slot hslot).trans (hregs slot.1 ?_)
    revert slot
    decide
  have hrdi : m.regs .rdi = pushed.regs .rsp - 64 := h.rdi
  have hrsp : m.regs .rsp = pushed.regs .rsp - 64 := h.rsp
  refine ⟨hrsp.trans hlow, hrdi.trans hrsp.symm, ?_, ?_, ?_, ?_⟩
  · intro r hr hne
    refine (h.regs r hne ?_).trans (hregs r hne)
    revert r
    decide
  · have hret : m.mem (pushed.regs .rsp - 64 + 56) = 0 := h.ret
    simp only [int80Slots, List.forall_mem_cons] at hslots
    simp only [readSyscallFrame, callerArgs, hrdi, hslots, hret]
    rfl
  · -- the stub does not write to the words above its frame
    rw [length_int80Words, words, List.append_nil] at hpushed
    rw [← hpushed]
    have htop : m.regs .rsp + 8 * UInt64.ofNat 8 = pushed.regs .rsp := by
      rw [hrsp]
      exact UInt64.sub_add_cancel ..
    rw [htop]
    refine words_congr fun i hi => h.mem _ fun k hk => ?_
    have habove : pushed.regs .rsp + 8 * UInt64.ofNat i =
        pushed.regs .rsp - 64 + 8 * UInt64.ofNat (8 + i) := by
      rw [UInt64.ofNat_add, UInt64.mul_add, ← UInt64.add_assoc]
      exact congrArg (· + _) (UInt64.sub_add_cancel ..).symm
    rw [habove]
    exact add_eight_mul_ne (by omega) (by omega) (by omega)
  · intro a ha
    have hstub : m.mem a = pushed.mem a := by
      refine h.mem a fun k hk heq => ha (12 - k) (by omega) ?_
      have haddress := sub_eight_mul_add (cpu.machine.regs .rsp &&& ~~~0xf) (n := 13)
        (k := 12 - k + 1) (by omega)
      rw [← haddress, show 13 - (12 - k + 1) = k by omega, ← hlow]
      exact heq
    rw [hstub, hmem a]
    · rfl
    · intro i hi
      rw [length_int80Words] at hi
      rw [halign]
      exact ha i (by omega)

theorem int80Entry_entered {entry : UInt64} {idt : Idt} (hpresent : (idt 0x80).present = true)
    (hoffset : (idt 0x80).offset = entry) (cpu : Cpu) :
    ∃ cpu', int80Entry entry idt cpu = some cpu' ∧ Int80Entered cpu cpu' := by
  have hstub := exec_int80StubEntry
    (jump (pushWords .rsp (alignStack cpu.machine) (int80Words cpu)) entry)
  refine ⟨_, ?_, hstub.entered ((idt 0x80).flags cpu.rflags &&& ~~~0x400)
    (idt 0x80).selector.toUInt64 cpu.ss⟩
  rw [int80Entry, deliver, if_pos hpresent, deliveredWords_int80, hoffset, Option.bind_eq_bind,
    Option.bind_some]
  exact if_pos rfl

theorem Int80Entered.misaligned {cpu cpu' : Cpu} (h : Int80Entered cpu cpu') :
    (cpu'.machine.regs .rsp).toNat % 16 = 8 := by
  have hsize : (8 * UInt64.ofNat 13 : UInt64).toNat = 104 := rfl
  have halign := toNat_align (cpu.machine.regs .rsp)
  rw [h.rsp, UInt64.toNat_sub, hsize]
  omega

section Return

variable {L : StackLayout} {cpu cpu' : Cpu} {after : Machine Reg} {ret : Int64}

theorem FrameReturns.iret (hentered : Int80Entered cpu cpu')
    (hroom : HasRoom L (cpu.machine.regs .rsp)) (hreturns : FrameReturns L cpu'.machine after ret) :
    words after.mem (cpu'.machine.regs .rsp + 8 * UInt64.ofNat 8) 5 =
      (int80Words cpu).reverse := by
  rw [← hentered.iret]
  refine words_congr fun i hi => hreturns.mem _ ?_ ?_
  · have hword := frameWord_kept hroom (n := 13) (i := 4 - i) (by omega) (by omega)
    have haddress := sub_eight_mul_add (cpu.machine.regs .rsp &&& ~~~0xf) (n := 13)
      (k := 4 - i + 1) (by omega)
    rw [← haddress, show 13 - (4 - i + 1) = 8 + i by omega, ← hentered.rsp, UInt64.ofNat_add,
      UInt64.mul_add, ← UInt64.add_assoc] at hword
    exact hword
  · rw [hentered.rdi, UInt64.add_assoc, ← UInt64.mul_add, ← UInt64.ofNat_add]
    exact add_eight_mul_ne (k := 7) (by omega) (by omega) (by omega)

theorem FrameReturns.kept (hentered : Int80Entered cpu cpu')
    (hroom : HasRoom L (cpu.machine.regs .rsp)) (hreturns : FrameReturns L cpu'.machine after ret)
    {a : UInt64} (ha : a ∉ L.scratch (cpu.machine.regs .rsp)) :
    after.mem a = cpu.machine.mem a := by
  have hoff : ∀ i < 13,
      a ≠ (cpu.machine.regs .rsp &&& ~~~0xf) - 8 * UInt64.ofNat (i + 1) := by
    rintro i hi rfl
    exact ha (.inl (frameWord_free hroom (by omega)))
  rw [hreturns.mem a, hentered.mem a hoff]
  · rw [hentered.rsp]
    exact scratch_mono hroom (by omega) ha
  · rintro rfl
    refine hoff 5 (by omega) ?_
    rw [hentered.rdi, hentered.rsp]
    exact sub_eight_mul_add _ (n := 13) (k := 6) (by omega)

theorem int80Return_resumed (hentered : Int80Entered cpu cpu')
    (hroom : HasRoom L (cpu.machine.regs .rsp)) (hreturns : FrameReturns L cpu'.machine after ret) :
    Resumed L cpu (int80Return { cpu' with machine := after }) ret := by
  have hsp : after.regs .rsp = cpu'.machine.regs .rsp := hreturns.saved .rsp (by decide)
  let m := exec .rsp after int80StubExit
  have hrsp : m.regs .rsp = cpu'.machine.regs .rsp + 8 * UInt64.ofNat 8 := by
    rw [← hsp]
    exact (setReg_self ..).trans (congrArg (· + 64) (setReg_of_ne _ _ (by decide)))
  have hregs : ∀ r, r ≠ .rsp → r ≠ .rax → m.regs r = after.regs r := by
    intro r hr hrax
    exact (setReg_of_ne _ _ hr).trans (setReg_of_ne _ _ hrax)
  have hiret : words m.mem (m.regs .rsp) 5 =
      [cpu.machine.rip, cpu.cs, cpu.rflags, cpu.machine.regs .rsp, cpu.ss] := by
    have hmem : m.mem = after.mem := rfl
    rw [hmem, hrsp]
    exact hreturns.iret hentered hroom
  rw [int80Return, iretq_eq (m := m) hiret]
  refine ⟨?_, ?_, rfl, rfl, rfl, rfl, fun a ha => hreturns.kept hentered hroom ha⟩
  · have hrax : m.regs .rax = after.mem (after.regs .rsp + 56) :=
      (setReg_of_ne _ _ (by decide)).trans (setReg_self ..)
    change (setReg m .rsp (cpu.machine.regs .rsp)).regs .rax = _
    rw [setReg_of_ne _ _ (by decide), hrax, hsp, ← hentered.rdi]
    exact hreturns.ret
  · intro r hr
    change (setReg m .rsp (cpu.machine.regs .rsp)).regs r = _
    by_cases hstack : r = .rsp
    · rw [hstack, setReg_self]
    · have hrax : r ≠ .rax := by
        revert r
        decide
      rw [setReg_of_ne _ _ hstack, hregs r hstack hrax, hreturns.saved r hr,
        hentered.saved r hr hstack]

end Return

section Runs

variable {σ : Type} {L : StackLayout} {entry : UInt64}

theorem dispatchAt_eq {g g' : SyscallState σ} {m : Machine Reg} {served : ServedCall}
    {frame : McsosSyscallFrame} (hframe : readSyscallFrame m.mem (m.regs .rdi) = frame)
    (h : dispatchAt g m = some (g', served)) :
    ∃ ret, mcsosSyscallDispatch g frame.nr frame.args = some (g', ret) ∧
      served = ⟨frame.nr, frame.args, ret⟩ := by
  rw [dispatchAt, hframe, mcsosSyscallDispatchFrame] at h
  rcases hcall : mcsosSyscallDispatch g frame.nr frame.args with _ | ⟨next, ret⟩
  · rw [hcall] at h
    cases h
  · rw [hcall] at h
    cases h
    exact ⟨ret, rfl, rfl⟩

theorem callStep_spec {h h' : CallHost σ} {action : CallAction} {result : Option ServedCall}
    (hpresent : (h.idt 0x80).present = true) (hoffset : (h.idt 0x80).offset = entry)
    (hallowed : h.allowed entry L action) (hstep : h.step entry action = some (h', result)) :
    h'.idt = h.idt ∧ CallSpec L (h.cpu, h.calls) action result (h'.cpu, h'.calls) := by
  cases action with
  | compute cpu =>
      cases hstep
      exact ⟨rfl, rfl, rfl⟩
  | int80 after =>
      obtain ⟨hroom, hreturns⟩ := hallowed
      obtain ⟨cpu, hentry, hentered⟩ := int80Entry_entered hpresent hoffset h.cpu
      rw [CallHost.step, hentry, Option.bind_eq_bind, Option.bind_some] at hstep
      obtain ⟨⟨g, served⟩, hdispatch, hrest⟩ := Option.bind_eq_some_iff.mp hstep
      cases hrest
      obtain ⟨ret, hcall, rfl⟩ := dispatchAt_eq hentered.frame hdispatch
      refine ⟨rfl, ret, hcall, rfl, ?_⟩
      exact int80Return_resumed hentered hroom (hreturns cpu g _ hentry hdispatch)

/-- With `x86_64_syscall_int80_stub` in the gate, whatever the caller does in between, every
`int $0x80` is a call of `mcsos_syscall_dispatch` with `rax` as the number and `rdi`, `rsi`,
`rdx`, `r10`, `r8` and `r9` as the arguments, which keeps what C functions keep, and the flags;
but the C function is always called on a misaligned stack. -/
theorem run_int80 {attributes : UInt8} (hattributes : attributes &&& 0x80 ≠ 0) (idt : Idt)
    {h h' : CallHost σ} (hidt : h.idt = idtSetGate idt 0x80 entry attributes)
    {trace : List (CallAction × Option ServedCall)}
    (hrun : Run (callSystem σ entry L) h trace h') :
    SpecRun (CallSpec L) (h.cpu, h.calls) trace (h'.cpu, h'.calls) ∧
      ∃ cpu, int80Entry entry h'.idt h'.cpu = some cpu ∧
        (cpu.machine.regs .rsp).toNat % 16 = 8 := by
  have hpresent : (h.idt 0x80).present = true := by
    rw [hidt, gate_present]
    exact decide_eq_true hattributes
  have hoffset : (h.idt 0x80).offset = entry := by rw [hidt, gate_offset]
  clear hidt
  induction hrun with
  | nil h =>
      obtain ⟨cpu, hentry, hentered⟩ := int80Entry_entered hpresent hoffset h.cpu
      exact ⟨.nil _, cpu, hentry, hentered.misaligned⟩
  | cons hallowed hstep hrest ih =>
      obtain ⟨hsame, hspec⟩ := callStep_spec hpresent hoffset hallowed hstep
      obtain ⟨hspecRun, hlast⟩ := ih (by rw [hsame, hpresent]) (by rw [hsame, hoffset])
      exact ⟨.cons hspec hspecRun, hlast⟩

end Runs

/-- A caller of `sys_ping`. -/
def pingHost : CallHost Unit :=
  ⟨{ bootCpu with machine := setReg bootCpu.machine .rax 0 },
    idtSetGate (fun _ => ⟨0, 0, 0, 0, 0, 0, 0⟩) 0x80 0x3000 gateInterrupt, zeroGlobals ()⟩

/-- The machine of a C function that only stores its result. -/
def storing (h : CallHost Unit) (ret : Int64) : Machine Reg :=
  match int80Entry 0x3000 h.idt h.cpu with
  | none => h.cpu.machine
  | some cpu =>
      { cpu.machine with
        mem := Function.update cpu.machine.mem (cpu.machine.regs .rdi + 56) ret.toUInt64 }

theorem step_storing {h : CallHost Unit} (hidt : h.idt = pingHost.idt)
    (hroom : HasRoom bootLayout (h.cpu.machine.regs .rsp)) {ret : Int64}
    (hcall : mcsosSyscallDispatch h.calls (h.cpu.machine.regs .rax) (callerArgs h.cpu) =
      some (zeroGlobals (), ret)) :
    h.allowed 0x3000 bootLayout (.int80 (storing h ret)) ∧
      ∃ cpu, h.step 0x3000 (.int80 (storing h ret)) =
        some (⟨cpu, pingHost.idt, zeroGlobals ()⟩,
          some ⟨h.cpu.machine.regs .rax, callerArgs h.cpu, ret⟩) := by
  have hpresent : (h.idt 0x80).present = true := by
    rw [hidt, pingHost, gate_present]
    decide
  have hoffset : (h.idt 0x80).offset = 0x3000 := by rw [hidt, pingHost, gate_offset]
  obtain ⟨cpu, hentry, hentered⟩ := int80Entry_entered hpresent hoffset h.cpu
  have hdispatch : dispatchAt h.calls cpu.machine =
      some (zeroGlobals (), ⟨h.cpu.machine.regs .rax, callerArgs h.cpu, ret⟩) := by
    rw [dispatchAt, hentered.frame, mcsosSyscallDispatchFrame, hcall]
    rfl
  refine ⟨⟨hroom, ?_⟩, ?_⟩
  · intro cpu' g served hentry' hdispatch'
    cases hentry.symm.trans hentry'
    cases hdispatch.symm.trans hdispatch'
    rw [storing, hentry]
    exact ⟨fun _ _ => rfl, Function.update_self .., fun a _ ha => Function.update_of_ne ha ..⟩
  · refine ⟨int80Return { cpu with machine := storing h ret }, ?_⟩
    rw [CallHost.step, hentry, Option.bind_eq_bind, Option.bind_some, hdispatch, ← hidt]
    rfl

/-- The same caller a little later, with another number. -/
def ticksCpu : Cpu := { bootCpu with machine := jump (setReg bootCpu.machine .rax 1) 0x2010 }

def ticksHost : CallHost Unit := ⟨ticksCpu, pingHost.idt, zeroGlobals ()⟩

theorem run_int80_ping :
    ∃ h', Run (callSystem Unit 0x3000 bootLayout) pingHost
        [(.int80 (storing pingHost 0x2605020a), some ⟨0, callerArgs pingHost.cpu, 0x2605020a⟩),
          (.compute ticksCpu, none),
          (.int80 (storing ticksHost mcsosEbusy),
            some ⟨1, callerArgs ticksCpu, mcsosEbusy⟩)] h' ∧
      h'.cpu.machine.regs .rax = mcsosEbusy.toUInt64 ∧ h'.cpu.machine.rip = 0x2010 := by
  have hroom : HasRoom bootLayout 0x7008 := by
    unfold HasRoom
    decide
  obtain ⟨hallowed, cpu, hstep⟩ := step_storing (h := pingHost) rfl hroom rfl
  obtain ⟨hallowed', cpu', hstep'⟩ := step_storing (h := ticksHost) rfl hroom rfl
  have hrun : Run (callSystem Unit 0x3000 bootLayout) pingHost
      [(.int80 (storing pingHost 0x2605020a), some ⟨0, callerArgs pingHost.cpu, 0x2605020a⟩),
        (.compute ticksCpu, none),
        (.int80 (storing ticksHost mcsosEbusy), some ⟨1, callerArgs ticksCpu, mcsosEbusy⟩)]
      ⟨cpu', pingHost.idt, zeroGlobals ()⟩ :=
    .cons hallowed hstep (.cons trivial rfl (.cons hallowed' hstep' (.nil _)))
  refine ⟨_, hrun, ?_⟩
  obtain ⟨hspec, -⟩ := run_int80 (by decide) _ rfl hrun
  rcases hspec with _ | ⟨-, hspec⟩
  rcases hspec with _ | ⟨⟨-, hcompute⟩, hspec⟩
  cases hcompute
  rcases hspec with _ | ⟨⟨ret, -, hserved, hresumed⟩, hnil⟩
  cases hnil
  cases hserved
  exact ⟨hresumed.rax, hresumed.rip⟩

end Mcsos.SyscallEntry
