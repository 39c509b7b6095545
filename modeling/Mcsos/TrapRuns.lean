import Mcsos.TrapFrames

/-!
Exceptions in between the instructions of a kernel.  A breakpoint leaves nothing behind but
its report, and any other exception is reported and stops the kernel.
-/

namespace Mcsos.TrapRuns

open Mcsos.CallSystem
open Mcsos.StackCode
open Mcsos.TrapFrames
open Mcsos.TrapModel
open Mcsos.WordMachine

/-- The processors are in the same state, as far as it matters: the words at the addresses
that are not live may differ. -/
structure Agree (live : (Reg → UInt64) → UInt64 → Set UInt64) (c d : Cpu) : Prop where
  regs : c.machine.regs = d.machine.regs
  rip : c.machine.rip = d.machine.rip
  rflags : c.rflags = d.rflags
  cs : c.cs = d.cs
  ss : c.ss = d.ss
  mem : ∀ a ∈ live c.machine.regs c.machine.rip, c.machine.mem a = d.machine.mem a

/-- Code that relies on nothing in the free part of the stack, as there is no red zone, and on
no variable of the handler. -/
structure KernelCode (L : StackLayout) where
  instruction : Cpu → Cpu
  live : (Reg → UInt64) → UInt64 → Set UInt64
  live_off_scratch : ∀ regs rip, regs .rsp ≤ L.high → ∀ a ∈ live regs rip,
    a ∉ L.scratch (regs .rsp)
  instruction_congr : ∀ c d, Agree live c d → Agree live (instruction c) (instruction d)

structure Report where
  vector : UInt8
  errorCode : UInt64
  rip : UInt64
deriving DecidableEq, Repr

/-- A kernel in which exceptions are only reported.  After the first that is not a breakpoint
no code of it runs any more, and the processor is at an address in the loop of
`kernel_panic_at`. -/
structure Ideal where
  cpu : Cpu
  reports : List Report
  halted : Option UInt64

/-- The address that an exception interrupts. -/
def Ideal.rip (s : Ideal) : UInt64 := s.halted.getD s.cpu.machine.rip

def Ideal.step (image : IsrImage) (instruction : Cpu → Cpu) (s : Ideal) : HostAction → Ideal
  | .instruction =>
      match s.halted with
      | none => { s with cpu := instruction s.cpu }
      | some rip => { s with halted := some (haltNext image rip) }
  | .exception e _ =>
      { s with
        reports := s.reports ++ [⟨e.vector, frameErrorCode e.vector e.errorCode, s.rip⟩]
        halted := if e.vector = 3 then s.halted else some image.hlt }

def Ideal.run (image : IsrImage) (instruction : Cpu → Cpu) (s : Ideal)
    (actions : List HostAction) : Ideal :=
  actions.foldl (Ideal.step image instruction) s

/-- The text of a report. -/
def reportText (report : Report) : List Char :=
  dumpLines report.vector.toUInt64 report.errorCode report.rip ++
    if report.vector = 3 then handledLine else []

section Return

variable {L : StackLayout} {image : IsrImage} {vector : UInt8} {errorCode : UInt64}
  {cpu cpu' : Cpu} {after : Machine Reg}

theorem Returns.frame (hentered : Entered image vector errorCode cpu cpu')
    (hroom : HasRoom L (cpu.machine.regs .rsp)) (hreturns : Returns L cpu'.machine after) :
    words after.mem (after.regs .rsp) 22 = (frameWords vector errorCode cpu).reverse := by
  rw [hreturns.rsp, ← hentered.frame, hentered.rdi]
  refine words_congr fun i hi => hreturns.mem _ ?_
  have hword := frameWord_kept hroom (n := 22) (i := 21 - i) (by omega) (by omega)
  have haddress := sub_eight_mul_add (cpu.machine.regs .rsp &&& ~~~0xf) (n := 22)
    (k := 21 - i + 1) (by omega)
  rw [← haddress, show 22 - (21 - i + 1) = i by omega, ← hentered.base] at hword
  exact hword

theorem Returns.kept (hentered : Entered image vector errorCode cpu cpu')
    (hroom : HasRoom L (cpu.machine.regs .rsp)) (hreturns : Returns L cpu'.machine after)
    {a : UInt64} (ha : a ∉ L.scratch (cpu.machine.regs .rsp)) :
    after.mem a = cpu.machine.mem a := by
  rw [hreturns.mem a (by rw [hentered.base]; exact scratch_mono hroom (i := 21) (by omega) ha)]
  refine hentered.mem a fun i hi heq => ha (.inl ?_)
  rw [heq]
  exact frameWord_free hroom hi

theorem trapExit_kept (hentered : Entered image vector errorCode cpu cpu')
    (hroom : HasRoom L (cpu.machine.regs .rsp)) (hreturns : Returns L cpu'.machine after) :
    ∃ mem, trapExit image { cpu' with machine := after } =
        some { cpu with machine := { cpu.machine with mem := mem } } ∧
      ∀ a, a ∉ L.scratch (cpu.machine.regs .rsp) → mem a = cpu.machine.mem a :=
  ⟨after.mem,
    trapExit_eq (hreturns.rip.trans hentered.returnAddress)
      (Returns.frame hentered hroom hreturns) _ _ _,
    fun _ ha => Returns.kept hentered hroom hreturns ha⟩

end Return

theorem Agree.trans {live : (Reg → UInt64) → UInt64 → Set UInt64} {c d e : Cpu}
    (h : Agree live c d) (h' : Agree live d e) : Agree live c e := by
  refine ⟨h.regs.trans h'.regs, h.rip.trans h'.rip, h.rflags.trans h'.rflags, h.cs.trans h'.cs,
    h.ss.trans h'.ss, ?_⟩
  intro a ha
  have hsame := h'.mem a
  rw [← h.regs, ← h.rip] at hsame
  exact (h.mem a ha).trans (hsame ha)

theorem Agree.refl (live : (Reg → UInt64) → UInt64 → Set UInt64) (c : Cpu) : Agree live c c :=
  ⟨rfl, rfl, rfl, rfl, rfl, fun _ _ => rfl⟩

theorem agree_of_kept {L : StackLayout} (code : KernelCode L) {cpu : Cpu} {mem : UInt64 → UInt64}
    (hhigh : cpu.machine.regs .rsp ≤ L.high)
    (hmem : ∀ a, a ∉ L.scratch (cpu.machine.regs .rsp) → mem a = cpu.machine.mem a) :
    Agree code.live { cpu with machine := { cpu.machine with mem := mem } } cpu :=
  ⟨rfl, rfl, rfl, rfl, rfl, fun a ha => hmem a (code.live_off_scratch _ _ hhigh a ha)⟩

/-- The processor of the host: that of the kernel code, or in the loop. -/
def Runs {L : StackLayout} (code : KernelCode L) (s : Ideal) (cpu : Cpu) : Prop :=
  match s.halted with
  | none => Agree code.live cpu s.cpu
  | some rip => cpu.machine.rip = rip

/-- The host and the kernel in which exceptions are only reported, from a `start` on. -/
structure Represents {L : StackLayout} (image : IsrImage) (code : KernelCode L)
    (start : TrapState) (h : Host) (s : Ideal) : Prop where
  gates : ExceptionGates image h.idt
  segment : Gdt.hasCode h.gdt kernelCodeSelector = true
  halted : h.halted = s.halted.isSome
  cpu : Runs code s h.cpu
  trapCount : h.trap.trapCount = start.trapCount + UInt64.ofNat s.reports.length
  serial : h.trap.serial = start.serial ++ s.reports.flatMap reportText

theorem trapDispatch_eq (k : TrapState) (vector : UInt8) (errorCode : UInt64) (cpu : Cpu) :
    trapDispatch k (interruptedFrame vector errorCode cpu).toTrapFrame =
      (⟨k.trapCount + 1,
        k.serial ++ reportText ⟨vector, frameErrorCode vector errorCode, cpu.machine.rip⟩⟩,
        decide (vector = 3)) := by
  have hvector : (interruptedFrame vector errorCode cpu).vector = 3 ↔ vector = 3 := by
    constructor
    · intro h
      exact UInt8.toNat_inj.mp (congrArg UInt64.toNat h)
    · rintro rfl
      rfl
  rw [trapDispatch, reportText]
  by_cases hthree : vector = 3
  · rw [if_pos (hvector.mpr hthree), if_pos hthree, decide_eq_true hthree, List.append_assoc]
    rfl
  · rw [if_neg (mt hvector.mp hthree), if_neg hthree, decide_eq_false hthree, List.append_nil]
    rfl

theorem dispatched_eq (trap : TrapState) {image : IsrImage} {vector : UInt8} {errorCode : UInt64}
    {cpu cpu' : Cpu} (hentered : Entered image vector errorCode cpu cpu') :
    dispatched trap cpu' =
      (⟨trap.trapCount + 1,
        trap.serial ++ reportText ⟨vector, frameErrorCode vector errorCode, cpu.machine.rip⟩⟩,
        decide (vector = 3)) := by
  have hframe : readTrapFrame cpu'.machine.mem (cpu'.machine.regs .rdi) =
      (interruptedFrame vector errorCode cpu).toTrapFrame := by
    rw [← readTrapFrameEarly_eq hentered.frame]
    rfl
  rw [dispatched, hframe, trapDispatch_eq]

section Step

variable {L : StackLayout} {image : IsrImage} {code : KernelCode L} {start : TrapState}
  {h : Host} {s : Ideal}

theorem Runs.rip (hruns : Runs code s h.cpu) : h.cpu.machine.rip = s.rip := by
  rw [Runs] at hruns
  rw [Ideal.rip]
  split at hruns
  case h_1 hnone =>
    rw [hnone]
    exact hruns.rip
  case h_2 rip hsome =>
    rw [hsome]
    exact hruns

theorem Represents.reported (hrep : Represents image code start h s) (report : Report) :
    h.trap.trapCount + 1 = start.trapCount + UInt64.ofNat (s.reports ++ [report]).length ∧
      h.trap.serial ++ reportText report =
        start.serial ++ (s.reports ++ [report]).flatMap reportText := by
  constructor
  · rw [hrep.trapCount, List.length_append, UInt64.ofNat_add, UInt64.add_assoc]
    rfl
  · rw [hrep.serial, List.flatMap_append, List.flatMap_singleton, List.append_assoc]

theorem saved_breakpoint {e : Exception} (hthree : e.vector = 3) (cpu : Cpu) :
    e.saved cpu = cpu := by
  have hflags : e.savedFlags cpu.rflags = cpu.rflags := by
    rw [Exception.savedFlags, hthree, if_neg (by decide), if_pos (by decide)]
  rw [Exception.saved, hflags]

theorem Represents.exception (hrep : Represents image code start h s) {e : Exception}
    {after : Machine Reg} (hallowed : h.allowed image L (.exception e after)) :
    ∃ h', h.step image code.instruction (.exception e after) = some h' ∧
      Represents image code start h' (s.step image code.instruction (.exception e after)) := by
  obtain ⟨hvector, hroom, hafter⟩ := hallowed
  obtain ⟨cpu', hentry, hentered⟩ :=
    trapEntry_entered hrep.gates hrep.segment hvector h.cpu
  have hdispatched := dispatched_eq h.trap hentered
  have hrip : (e.saved h.cpu).machine.rip = s.rip := hrep.cpu.rip
  rw [hrip] at hdispatched
  have hreturns := hafter cpu' hentry
  obtain ⟨hcount, hserial⟩ :=
    hrep.reported ⟨e.vector, frameErrorCode e.vector e.errorCode, s.rip⟩
  rw [hdispatched] at hreturns
  rw [Host.step, hentry, Option.bind_eq_bind, Option.bind_some, hdispatched]
  dsimp only at hreturns ⊢
  by_cases hthree : e.vector = 3
  · -- the breakpoint returns to where it came from
    rw [if_pos (decide_eq_true hthree)] at hreturns
    rw [saved_breakpoint hthree] at hentered
    obtain ⟨mem, hexit, hmem⟩ := trapExit_kept hentered hroom hreturns
    rw [if_pos (decide_eq_true hthree), hexit]
    refine ⟨_, rfl, hrep.gates, hrep.segment, ?_, ?_, hcount, hserial⟩
    · rw [Ideal.step, if_pos hthree]
      exact hrep.halted
    · have hruns := hrep.cpu
      rw [Ideal.step, if_pos hthree]
      rw [Runs] at hruns ⊢
      dsimp only
      split at hruns
      case h_1 hnone => exact (agree_of_kept code hroom.2 hmem).trans hruns
      case h_2 rip hsome => exact hruns
  · have hfatal : ¬decide (e.vector = 3) = true := mt of_decide_eq_true hthree
    rw [if_neg hfatal] at hreturns
    rw [if_neg hfatal]
    refine ⟨_, rfl, hrep.gates, hrep.segment, ?_, ?_, hcount, hserial⟩
    · rw [Ideal.step, if_neg hthree]
      rfl
    · rw [Ideal.step, if_neg hthree]
      exact hreturns

theorem Represents.instruction (hrep : Represents image code start h s) :
    ∃ h', h.step image code.instruction .instruction = some h' ∧
      Represents image code start h' (s.step image code.instruction .instruction) := by
  have hruns := hrep.cpu
  rw [Runs] at hruns
  rw [Host.step, hrep.halted, Ideal.step]
  split at hruns
  case h_1 hnone =>
    rw [hnone]
    exact ⟨_, rfl, hrep.gates, hrep.segment, rfl, code.instruction_congr _ _ hruns,
      hrep.trapCount, hrep.serial⟩
  case h_2 rip hsome =>
    rw [hsome]
    exact ⟨_, rfl, hrep.gates, hrep.segment, rfl, congrArg (haltNext image) hruns,
      hrep.trapCount, hrep.serial⟩

theorem Represents.step (hrep : Represents image code start h s) {action : HostAction}
    (hallowed : h.allowed image L action) :
    ∃ h', h.step image code.instruction action = some h' ∧
      Represents image code start h' (s.step image code.instruction action) := by
  cases action with
  | instruction => exact hrep.instruction
  | exception e after => exact hrep.exception hallowed

end Step

theorem hostSystem_step {L : StackLayout} {image : IsrImage} {instruction : Cpu → Cpu}
    {h h' : Host} {action : HostAction} {result : Unit} :
    (hostSystem image L instruction).step h action = some (h', result) ↔
      h.step image instruction action = some h' := by
  constructor
  · intro hstep
    obtain ⟨next, hnext, heq⟩ := Option.map_eq_some_iff.mp hstep
    cases heq
    exact hnext
  · intro hstep
    exact congrArg (Option.map fun h => (h, ())) hstep

theorem Represents.run {L : StackLayout} {image : IsrImage} {code : KernelCode L}
    {start : TrapState} {h h' : Host} {s : Ideal} {trace : List (HostAction × Unit)}
    (hrun : Run (hostSystem image L code.instruction) h trace h')
    (hrep : Represents image code start h s) :
    Represents image code start h' (s.run image code.instruction (trace.map Prod.fst)) := by
  induction hrun generalizing s with
  | nil => exact hrep
  | cons hallowed hstep _ ih =>
      obtain ⟨next, hnext, hkept⟩ := hrep.step hallowed
      obtain rfl : next = _ := Option.some.inj (hnext.symm.trans (hostSystem_step.mp hstep))
      exact ih hkept

/-- From `x86_64_idt_init` on, with 64-bit code at the selector of the gates and exceptions at
any point between the instructions of the kernel or of the loop that it halts in, the kernel goes
on as if there had been none, up to the first that is not a breakpoint, after which it stays in
that loop; each is counted and reported with its vector, its error code and the interrupted
address, before and after that, and none gets lost. -/
theorem run_exceptions {L : StackLayout} {image : IsrImage} (code : KernelCode L)
    (base : UInt64) (idt : Idt) {h h' : Host} (hidt : h.idt = (idtInit image.stubs base idt).1)
    (hsegment : Gdt.hasCode h.gdt kernelCodeSelector = true) (hrunning : h.halted = false)
    {trace : List (HostAction × Unit)}
    (hrun : Run (hostSystem image L code.instruction) h trace h') :
    let ideal := Ideal.run image code.instruction ⟨h.cpu, [], none⟩ (trace.map Prod.fst)
    h'.halted = ideal.halted.isSome ∧
      Runs code ideal h'.cpu ∧
      h'.trap.trapCount = h.trap.trapCount + UInt64.ofNat ideal.reports.length ∧
      h'.trap.serial = h.trap.serial ++ ideal.reports.flatMap reportText ∧
      ∀ action, h'.allowed image L action →
        ∃ h'', h'.step image code.instruction action = some h'' := by
  have hstart : Represents image code h.trap h ⟨h.cpu, [], none⟩ := by
    refine ⟨?_, hsegment, hrunning, .refl code.live h.cpu, ?_, ?_⟩
    · rw [hidt]
      exact idtInit_gates image base idt
    · exact (UInt64.add_zero _).symm
    · exact (List.append_nil _).symm
  have hrep := hstart.run hrun
  refine ⟨hrep.halted, hrep.cpu, hrep.trapCount, hrep.serial, ?_⟩
  intro action hallowed
  obtain ⟨h'', hstep, -⟩ := hrep.step hallowed
  exact ⟨h'', hstep⟩

/-- Code that loads a global variable again and again. -/
def loadCode : KernelCode bootLayout where
  instruction c :=
    { c with machine := jump (setReg c.machine .rax (c.machine.mem 0x9000)) (c.machine.rip + 8) }
  live _ _ := {0x9000}
  live_off_scratch := by
    rintro regs rip hhigh a rfl (⟨-, hbelow⟩ | hdata)
    · exact absurd (UInt64.lt_of_lt_of_le hbelow hhigh) (by decide)
    · exact absurd (show (0x9000 : UInt64) = 0xa000 from hdata) (by decide)
  instruction_congr := by
    intro c d h
    refine ⟨?_, congrArg (· + 8) h.rip, h.rflags, h.cs, h.ss, h.mem⟩
    exact congrArg₂ (Function.update · .rax) h.regs (h.mem 0x9000 rfl)

def bootHost : Host :=
  ⟨bootCpu, loaderGdt, (idtInit packedStubs 0x4000 fun _ => ⟨0, 0, 0, 0, 0, 0, 0⟩).1, ⟨0, []⟩,
    false⟩

theorem bootHost_represents :
    Represents packedImage loadCode bootHost.trap bootHost ⟨bootCpu, [], none⟩ :=
  ⟨idtInit_gates packedImage 0x4000 _, by decide, rfl, .refl _ _, rfl, rfl⟩

/-- The machine of a handler that changes nothing and returns. -/
def returning (h : Host) (e : Exception) : Machine Reg :=
  match trapEntry packedImage h.gdt h.idt e h.cpu with
  | none => h.cpu.machine
  | some cpu =>
      jump (setReg cpu.machine .rsp (cpu.machine.regs .rsp + 8))
        (cpu.machine.mem (cpu.machine.regs .rsp))

/-- A machine that has come to the loop. -/
def looping : Machine Reg := ⟨fun _ => 0x6800, packedImage.hlt, fun _ => 0⟩

section Witness

variable {h : Host} {s : Ideal} {e : Exception}

theorem allowed_returning (hrep : Represents packedImage loadCode bootHost.trap h s)
    (hthree : e.vector = 3) (hroom : HasRoom bootLayout (h.cpu.machine.regs .rsp)) :
    h.allowed packedImage bootLayout (.exception e (returning h e)) := by
  have hvector : e.vector < 32 := by
    rw [hthree]
    decide
  obtain ⟨cpu, hentry, hentered⟩ := trapEntry_entered hrep.gates hrep.segment hvector h.cpu
  refine ⟨hvector, hroom, fun cpu' hentry' => ?_⟩
  cases hentry.symm.trans hentry'
  rw [dispatched_eq _ hentered, if_pos (decide_eq_true hthree), returning, hentry]
  exact ⟨rfl, setReg_self cpu.machine Reg.rsp _, fun _ _ => rfl⟩

theorem allowed_looping (hrep : Represents packedImage loadCode bootHost.trap h s)
    (hvector : e.vector < 32) (hfatal : e.vector ≠ 3)
    (hroom : HasRoom bootLayout (h.cpu.machine.regs .rsp)) :
    h.allowed packedImage bootLayout (.exception e looping) := by
  obtain ⟨cpu, hentry, hentered⟩ := trapEntry_entered hrep.gates hrep.segment hvector h.cpu
  refine ⟨hvector, hroom, fun cpu' hentry' => ?_⟩
  cases hentry.symm.trans hentry'
  rw [dispatched_eq _ hentered, if_neg (mt of_decide_eq_true hfatal)]
  rfl

theorem step_looping {h' : Host} {after : Machine Reg} (hrunning : h.halted = false)
    (hhalted : h'.halted = true)
    (hstep : h.step packedImage loadCode.instruction (.exception e after) = some h') :
    h'.cpu.machine = after := by
  obtain ⟨cpu, -, hrest⟩ := Option.bind_eq_some_iff.mp hstep
  dsimp only at hrest
  split at hrest
  · obtain ⟨cpu', -, heq⟩ := Option.bind_eq_some_iff.mp hrest
    cases heq
    rw [hrunning] at hhalted
    cases hhalted
  · cases hrest
    rfl

end Witness

theorem run_exceptions_loop :
    ∃ after h', Run (hostSystem packedImage bootLayout loadCode.instruction) bootHost
        [(.exception ⟨3, 0, false⟩ after, ()), (.instruction, ()),
          (.exception ⟨13, 0x18, false⟩ looping, ()), (.instruction, ()),
          (.exception ⟨2, 0, false⟩ looping, ())] h' ∧
      h'.halted = true ∧ h'.trap.trapCount = 3 ∧
      h'.trap.serial =
        [⟨3, 0, 0x2000⟩, ⟨13, 0x18, 0x2008⟩, ⟨2, 0, 0x1481⟩].flatMap reportText := by
  have hroom : HasRoom bootLayout 0x7008 ∧ HasRoom bootLayout 0x6800 := by
    unfold HasRoom
    decide
  have hallowed₁ := allowed_returning bootHost_represents (e := ⟨3, 0, false⟩) rfl hroom.1
  obtain ⟨h₁, hstep₁, hrep₁⟩ := bootHost_represents.step hallowed₁
  obtain ⟨h₂, hstep₂, hrep₂⟩ := hrep₁.instruction
  have hrsp₂ : h₂.cpu.machine.regs .rsp = 0x7008 := congrFun (Agree.regs hrep₂.cpu) Reg.rsp
  have hallowed₃ := allowed_looping hrep₂ (e := ⟨13, 0x18, false⟩) (by decide) (by decide)
    (by rw [hrsp₂]; exact hroom.1)
  obtain ⟨h₃, hstep₃, hrep₃⟩ := hrep₂.step hallowed₃
  have hhalted₃ : h₃.halted = true := hrep₃.halted
  have hmachine : h₃.cpu.machine = looping := step_looping hrep₂.halted hhalted₃ hstep₃
  obtain ⟨h₄, hstep₄, hrep₄⟩ := hrep₃.instruction
  have hrsp₄ : h₄.cpu.machine.regs .rsp = 0x6800 := by
    have hloop := hstep₄
    rw [Host.step, if_pos hhalted₃] at hloop
    cases hloop
    exact congrArg (·.regs .rsp) hmachine
  have hallowed₅ := allowed_looping hrep₄ (e := ⟨2, 0, false⟩) (by decide) (by decide)
    (by rw [hrsp₄]; exact hroom.2)
  obtain ⟨h₅, hstep₅, -⟩ := hrep₄.step hallowed₅
  have hrun : Run (hostSystem packedImage bootLayout loadCode.instruction) bootHost
      [(.exception ⟨3, 0, false⟩ (returning bootHost ⟨3, 0, false⟩), ()), (.instruction, ()),
        (.exception ⟨13, 0x18, false⟩ looping, ()), (.instruction, ()),
        (.exception ⟨2, 0, false⟩ looping, ())] h₅ :=
    .cons hallowed₁ (hostSystem_step.mpr hstep₁) (.cons trivial (hostSystem_step.mpr hstep₂)
      (.cons hallowed₃ (hostSystem_step.mpr hstep₃) (.cons trivial (hostSystem_step.mpr hstep₄)
        (.cons hallowed₅ (hostSystem_step.mpr hstep₅) (.nil h₅)))))
  obtain ⟨hhalted, -, hcount, hserial, -⟩ :=
    run_exceptions loadCode 0x4000 _ rfl (by decide) rfl hrun
  exact ⟨_, h₅, hrun, hhalted, hcount, hserial⟩

end Mcsos.TrapRuns
