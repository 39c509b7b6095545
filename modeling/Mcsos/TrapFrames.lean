import Mcsos.TrapModel
import Mcsos.WordArithmetic

namespace Mcsos.TrapFrames

open Mcsos.StackCode
open Mcsos.TrapModel
open Mcsos.WordArithmetic
open Mcsos.WordMachine

theorem or_parts {h : Nat} (hh : h < 2 ^ 64) :
    h % 2 ^ 16 ||| (h / 2 ^ 16 % 2 ^ 16) <<< 16 % 2 ^ 64 |||
      (h / 2 ^ 32 % 2 ^ 32) <<< 32 % 2 ^ 64 = h := by
  have hmid : (h / 2 ^ 16 % 2 ^ 16) <<< 16 < 2 ^ 64 := by
    rw [Nat.shiftLeft_eq]
    omega
  have hhigh : (h / 2 ^ 32 % 2 ^ 32) <<< 32 < 2 ^ 64 := by
    rw [Nat.shiftLeft_eq]
    omega
  have hlow : h % 2 ^ 16 ||| (h / 2 ^ 16 % 2 ^ 16) <<< 16 = h % 2 ^ 32 := by
    rw [Nat.or_comm, ← Nat.shiftLeft_add_eq_or_of_lt (Nat.mod_lt _ (by omega)),
      Nat.shiftLeft_eq]
    omega
  rw [Nat.mod_eq_of_lt hmid, Nat.mod_eq_of_lt hhigh, hlow, Nat.or_comm,
    ← Nat.shiftLeft_add_eq_or_of_lt (Nat.mod_lt _ (by omega)), Nat.shiftLeft_eq]
  omega

theorem gate_offset (idt : Idt) (vector : UInt8) (handler : UInt64) (attributes : UInt8) :
    (idtSetGate idt vector handler attributes vector).offset = handler := by
  rw [idtSetGate, Function.update_self, IdtEntry.offset]
  apply UInt64.toNat_inj.mp
  have hlow : (handler &&& 0xffff).toNat = handler.toNat % 2 ^ 16 := by
    rw [UInt64.toNat_and]
    exact Nat.and_two_pow_sub_one_eq_mod handler.toNat 16
  have hmid : ((handler >>> 16) &&& 0xffff).toNat = handler.toNat / 2 ^ 16 % 2 ^ 16 := by
    rw [UInt64.toNat_and, UInt64.toNat_shiftRight]
    exact (Nat.and_two_pow_sub_one_eq_mod _ 16).trans
      (congrArg (· % 2 ^ 16) (Nat.shiftRight_eq_div_pow ..))
  have hhigh : ((handler >>> 32) &&& 0xffffffff).toNat = handler.toNat / 2 ^ 32 % 2 ^ 32 := by
    rw [UInt64.toNat_and, UInt64.toNat_shiftRight]
    exact (Nat.and_two_pow_sub_one_eq_mod _ 32).trans
      (congrArg (· % 2 ^ 32) (Nat.shiftRight_eq_div_pow ..))
  rw [UInt64.toNat_or, UInt64.toNat_or, UInt64.toNat_shiftLeft, UInt64.toNat_shiftLeft,
    UInt16.toNat_toUInt64, UInt16.toNat_toUInt64, UInt32.toNat_toUInt64, UInt64.toNat_toUInt16,
    UInt64.toNat_toUInt16, UInt64.toNat_toUInt32, hlow, hmid, hhigh, Nat.mod_mod, Nat.mod_mod,
    Nat.mod_mod]
  exact or_parts handler.toNat_lt

theorem gate_self (idt idt' : Idt) (vector : UInt8) (handler : UInt64) (attributes : UInt8) :
    idtSetGate idt vector handler attributes vector =
      idtSetGate idt' vector handler attributes vector := by
  rw [idtSetGate, idtSetGate, Function.update_self, Function.update_self]

theorem gate_present (idt : Idt) (vector : UInt8) (handler : UInt64) (attributes : UInt8) :
    (idtSetGate idt vector handler attributes vector).present =
      decide (attributes &&& 0x80 ≠ 0) := by
  rw [idtSetGate, Function.update_self]
  rfl

theorem gate_usable (gdt : Gdt) (idt : Idt) (vector : UInt8) (handler : UInt64)
    {attributes : UInt8} (hattributes : attributes &&& 0x9e = 0x8e) :
    (idtSetGate idt vector handler attributes vector).usable gdt =
      Gdt.hasCode gdt kernelCodeSelector := by
  rw [idtSetGate, Function.update_self, IdtEntry.usable, decide_eq_true hattributes,
    Bool.true_and]

theorem setGates_apply (handler : UInt8 → UInt64) (attributes : UInt8 → UInt8) (idt : Idt)
    (vector : UInt8) {n : Nat} (hn : n ≤ 256) :
    (List.range n).foldl (fun idt i => idtSetGate idt (UInt8.ofNat i) (handler (UInt8.ofNat i))
        (attributes (UInt8.ofNat i))) idt vector =
      if vector.toNat < n then idtSetGate idt vector (handler vector) (attributes vector) vector
      else idt vector := by
  induction n with
  | zero => rfl
  | succ n ih =>
      rw [List.range_succ, List.foldl_append, List.foldl_cons, List.foldl_nil]
      have hindex : (UInt8.ofNat n).toNat = n := UInt8.toNat_ofNat_of_lt' hn
      by_cases hlast : vector = UInt8.ofNat n
      · have hlt : vector.toNat < n + 1 := by rw [hlast, hindex]; exact Nat.lt_succ_self n
        rw [if_pos hlt, hlast]
        exact gate_self ..
      · rw [idtSetGate, Function.update_of_ne hlast, ih (by omega)]
        have hne : vector.toNat ≠ n := by
          rintro heq
          exact hlast (UInt8.toNat_inj.mp (by rw [hindex, heq]))
        by_cases hlt : vector.toNat < n
        · rw [if_pos hlt, if_pos (Nat.lt_succ_of_lt hlt)]
        · rw [if_neg hlt, if_neg (by omega)]

/-- The gates of the exceptions can be used with a code segment at their selector, and lead to
their stubs, and no other gate is present. -/
structure ExceptionGates (image : IsrImage) (idt : Idt) : Prop where
  usable : ∀ gdt vector, vector < 32 →
    (idt vector).usable gdt = Gdt.hasCode gdt kernelCodeSelector
  offset : ∀ vector, vector < 32 → (idt vector).offset = image.stubs vector
  present : ∀ vector, (idt vector).present = decide (vector < 32)

theorem toNat_lt_iff (vector : UInt8) : vector.toNat < 32 ↔ vector < 32 :=
  (UInt8.lt_iff_toNat_lt (b := 32)).symm

theorem exceptionGates_of_apply {image : IsrImage} {idt before : Idt} {attributes : UInt8 → UInt8}
    (hattributes : ∀ vector, attributes vector &&& 0x9e = 0x8e)
    (hbefore : ∀ vector, (before vector).present = false)
    (h : ∀ vector, idt vector =
      if vector.toNat < 32 then
        idtSetGate before vector (image.stubs vector) (attributes vector) vector
      else before vector) :
    ExceptionGates image idt := by
  refine ⟨?_, ?_, ?_⟩
  · intro gdt vector hlt
    rw [h, if_pos ((toNat_lt_iff vector).mpr hlt), gate_usable gdt _ _ _ (hattributes vector)]
  · intro vector hlt
    rw [h, if_pos ((toNat_lt_iff vector).mpr hlt)]
    exact gate_offset ..
  · intro vector
    rw [h]
    by_cases hlt : vector.toNat < 32
    · have hbit : attributes vector &&& 0x80 = 0x80 := by
        have hmask := congrArg (· &&& 0x80) (hattributes vector)
        rwa [UInt8.and_assoc] at hmask
      rw [if_pos hlt, gate_present, hbit, decide_eq_true ((toNat_lt_iff vector).mp hlt)]
      rfl
    · rw [if_neg hlt, hbefore, decide_eq_false (mt (toNat_lt_iff vector).mpr hlt)]

theorem clearGates_absent (idt : Idt) (vector : UInt8) :
    (clearGates idt vector).present = false := by
  have hclear := setGates_apply (fun _ => 0) (fun _ => 0) idt vector (Nat.le_refl 256)
  rw [if_pos vector.toNat_lt] at hclear
  rw [clearGates, hclear, gate_present]
  decide

theorem idtInit_gates (image : IsrImage) (base : UInt64) (idt : Idt) :
    ExceptionGates image (idtInit image.stubs base idt).1 := by
  have hgate : ∀ vector, (idtInit image.stubs base idt).1 vector = _ :=
    fun vector => setGates_apply image.stubs
      (fun vector => if vector = 3 then gateTrap else gateInterrupt) (clearGates idt) vector
      (by omega)
  refine exceptionGates_of_apply (fun vector => ?_) (clearGates_absent idt) hgate
  split
  · decide
  · decide

/-- The registers in the order in which `isr_common` pushes them. -/
def savedRegs : List Reg :=
  [.rax, .rbx, .rcx, .rdx, .rbp, .rdi, .rsi, .r8, .r9, .r10, .r11, .r12, .r13, .r14, .r15]

theorem mem_savedRegs {r : Reg} (hr : r ≠ .rsp) : r ∈ savedRegs := by
  cases r <;> first | exact absurd rfl hr | decide

/-- The error code of the processor, or the zero that a stub puts in its place. -/
def frameErrorCode (vector : UInt8) (errorCode : UInt64) : UInt64 :=
  if vector ∈ errorCodeVectors then errorCode else 0

/-- The words of a frame in the order in which they are pushed. -/
def frameWords (vector : UInt8) (errorCode : UInt64) (cpu : Cpu) : List UInt64 :=
  [cpu.ss, cpu.machine.regs .rsp, cpu.rflags, cpu.cs, cpu.machine.rip,
    frameErrorCode vector errorCode, vector.toUInt64] ++ savedRegs.map cpu.machine.regs

theorem length_frameWords (vector : UInt8) (errorCode : UInt64) (cpu : Cpu) :
    (frameWords vector errorCode cpu).length = 22 := rfl

/-- What a stub pushes. -/
def stubWords (vector : UInt8) : List UInt64 :=
  if vector ∈ errorCodeVectors then [vector.toUInt64] else [0, vector.toUInt64]

theorem isrErr_iff : ∀ i < 32, UInt8.ofNat i ∈ errorCodeVectors ↔
    isrMacros.getD i .isrNoerr = .isrErr := by
  decide

theorem isrStub_eq {vector : UInt8} (hvector : vector < 32) :
    isrStub vector = (stubWords vector).map .pushImm := by
  have hkind := isrErr_iff vector.toNat ((toNat_lt_iff vector).mpr hvector)
  rw [UInt8.ofNat_toNat] at hkind
  rw [isrStub, stubWords]
  by_cases herr : vector ∈ errorCodeVectors
  · rw [if_pos herr, hkind.mp herr]
    rfl
  · rw [if_neg herr]
    cases hcase : isrMacros.getD vector.toNat .isrNoerr with
    | isrNoerr => rfl
    | isrErr => exact absurd (hkind.mpr hcase) herr

theorem frameWords_eq (vector : UInt8) (errorCode : UInt64) (cpu : Cpu) :
    deliveredWords vector errorCode cpu ++ stubWords vector ++ savedRegs.map cpu.machine.regs =
      frameWords vector errorCode cpu := by
  rw [deliveredWords, stubWords, frameWords, frameErrorCode]
  by_cases herr : vector ∈ errorCodeVectors
  · rw [if_pos herr, if_pos herr, if_pos herr]
    rfl
  · rw [if_neg herr, if_neg herr, if_neg herr]
    rfl

theorem stubAt_stub (image : IsrImage) {vector : UInt8} (hvector : vector < 32) :
    stubAt image (image.stubs vector) = some vector := by
  have hrange : ∀ v : UInt8, v ∈ (List.range 32).map UInt8.ofNat ↔ v < 32 := by
    intro v
    rw [List.mem_map]
    constructor
    · rintro ⟨i, hi, rfl⟩
      have hlt := List.mem_range.mp hi
      rw [UInt8.lt_iff_toNat_lt, UInt8.toNat_ofNat_of_lt' (Nat.lt_trans hlt (by decide))]
      exact hlt
    · intro hv
      exact ⟨v.toNat, List.mem_range.mpr ((toNat_lt_iff v).mpr hv), UInt8.ofNat_toNat⟩
  rcases hfind : stubAt image (image.stubs vector) with _ | found
  · have hnone := List.find?_eq_none.mp hfind vector ((hrange vector).mpr hvector)
    exact absurd (decide_eq_true rfl) hnone
  · have hsame : image.stubs found = image.stubs vector := by simpa using List.find?_some hfind
    have hfound := (hrange found).mp (List.mem_of_find?_eq_some hfind)
    rw [image.stubs_inj found hfound vector hvector hsame]

/-- The machine at the first instruction of `x86_64_trap_dispatch`. -/
structure Entered (image : IsrImage) (vector : UInt8) (errorCode : UInt64) (cpu cpu' : Cpu) :
    Prop where
  rip : cpu'.machine.rip = image.trapDispatch
  rsp : cpu'.machine.regs .rsp = (cpu.machine.regs .rsp &&& ~~~0xf) - 8 * UInt64.ofNat 23
  rdi : cpu'.machine.regs .rdi = cpu'.machine.regs .rsp + 8
  words : words cpu'.machine.mem (cpu'.machine.regs .rsp) 23 =
    image.returnAddress :: (frameWords vector errorCode cpu).reverse
  mem : ∀ a, (∀ i < 23, a ≠ (cpu.machine.regs .rsp &&& ~~~0xf) - 8 * UInt64.ofNat (i + 1)) →
    cpu'.machine.mem a = cpu.machine.mem a

theorem savedRegs_ne {r : Reg} (hr : r ∈ savedRegs) : r ≠ .rsp := by
  rintro rfl
  revert hr
  decide

theorem savedRegs_pushed (m : Machine Reg) (ws : List UInt64) (target : UInt64) :
    savedRegs.map (jump (pushWords .rsp (alignStack m) ws) target).regs =
      savedRegs.map m.regs := by
  refine List.map_congr_left fun r hr => ?_
  rw [jump, pushWords_regs _ _ (savedRegs_ne hr), alignStack, setReg_of_ne _ _ (savedRegs_ne hr)]

/-- The stack of the processor with a whole frame on it. -/
def pushedFrame (vector : UInt8) (errorCode : UInt64) (cpu : Cpu) : Machine Reg :=
  pushWords .rsp (alignStack cpu.machine) (frameWords vector errorCode cpu)

theorem exec_entry {vector : UInt8} (hvector : vector < 32) (errorCode : UInt64) (cpu : Cpu)
    (target : UInt64) :
    exec .rsp
        (jump (pushWords .rsp (alignStack cpu.machine) (deliveredWords vector errorCode cpu))
          target)
        (isrStub vector ++ isrCommonEntry) =
      setReg (jump (pushedFrame vector errorCode cpu) target) .rdi
        ((pushedFrame vector errorCode cpu).regs .rsp) := by
  have hcommon : isrCommonEntry = savedRegs.map .push ++ [.mov .rsp .rdi] := rfl
  rw [exec_append, isrStub_eq hvector, exec_pushImms, pushWords_jump, ← pushWords_append,
    hcommon, exec_append, exec_pushes _ (by decide), savedRegs_pushed, pushWords_jump,
    ← pushWords_append, frameWords_eq, ← pushedFrame]
  rfl

theorem call_frame (frame : Machine Reg) (stub returnAddress : UInt64) {m : Machine Reg}
    (hm : m = pushWord .rsp (setReg (jump frame stub) .rdi (frame.regs .rsp)) returnAddress)
    {n : Nat} (hn : n < 2 ^ 61) :
    m.regs .rsp = frame.regs .rsp - 8 ∧ m.regs .rdi = m.regs .rsp + 8 ∧
      words m.mem (m.regs .rsp) (n + 1) = returnAddress :: words frame.mem (frame.regs .rsp) n ∧
      ∀ a, a ≠ frame.regs .rsp - 8 → m.mem a = frame.mem a := by
  have hbase : (setReg (jump frame stub) .rdi (frame.regs .rsp)).regs .rsp = frame.regs .rsp :=
    setReg_of_ne _ _ (by decide)
  have hsp : m.regs .rsp = frame.regs .rsp - 8 := by rw [hm, pushWord_sp, hbase]
  have hrdi : m.regs .rdi = frame.regs .rsp := by
    rw [hm]
    exact (setReg_of_ne _ _ (by decide)).trans (setReg_self ..)
  refine ⟨hsp, ?_, ?_, ?_⟩
  · rw [hrdi, hsp, UInt64.sub_add_cancel]
  · rw [hm, pushWord_words hn, hbase]
    rfl
  · intro a ha
    rw [hm]
    rw [← hbase] at ha
    exact Function.update_of_ne ha ..

theorem trapEntry_entered {image : IsrImage} {gdt : Gdt} {idt : Idt}
    (hgates : ExceptionGates image idt) (hcode : Gdt.hasCode gdt kernelCodeSelector = true)
    {e : Exception} (hvector : e.vector < 32) (cpu : Cpu) :
    ∃ cpu', trapEntry image gdt idt e cpu = some cpu' ∧
      Entered image e.vector e.errorCode (e.saved cpu) cpu' := by
  have hpresent : (idt e.vector).present = true := by
    rw [hgates.present, decide_eq_true hvector]
  have husable : (idt e.vector).usable gdt = true := by rw [hgates.usable gdt _ hvector, hcode]
  have hstub := stubAt_stub image hvector
  rw [trapEntry, if_pos husable, deliver, if_pos hpresent, hgates.offset _ hvector]
  generalize e.saved cpu = cpu
  have halign : (alignStack cpu.machine).regs .rsp = cpu.machine.regs .rsp &&& ~~~0xf := by
    rw [alignStack, setReg_self]
  have hrip : stubAt image (jump (pushWords .rsp (alignStack cpu.machine)
      (deliveredWords e.vector e.errorCode cpu)) (image.stubs e.vector)).rip = some e.vector :=
    hstub
  rw [Option.bind_eq_bind, Option.bind_some, hrip, Option.bind_eq_bind, Option.bind_some,
    exec_entry hvector]
  have hlen := length_frameWords e.vector e.errorCode cpu
  have hframe := pushWords_words .rsp (alignStack cpu.machine)
    (frameWords e.vector e.errorCode cpu) (n := 0) (by rw [hlen]; decide)
  have hsp := pushWords_sp .rsp (alignStack cpu.machine) (frameWords e.vector e.errorCode cpu)
  have hmem := fun a =>
    pushWords_mem .rsp (alignStack cpu.machine) (frameWords e.vector e.errorCode cpu) (a := a)
  rw [← pushedFrame] at hframe hsp hmem
  rw [halign, hlen] at hsp
  rw [hlen, words, List.append_nil] at hframe
  generalize pushedFrame e.vector e.errorCode cpu = frame at hframe hsp hmem ⊢
  obtain ⟨hrsp, hrdi, hwords, hkept⟩ :=
    call_frame frame (image.stubs e.vector) image.returnAddress rfl (n := 22) (by decide)
  have hnext : (cpu.machine.regs .rsp &&& ~~~0xf) - 8 * UInt64.ofNat 22 - 8 =
      (cpu.machine.regs .rsp &&& ~~~0xf) - 8 * UInt64.ofNat 23 := sub_sub_eq ..
  rw [hsp, hnext] at hrsp hkept
  rw [hframe] at hwords
  refine ⟨_, rfl, rfl, hrsp, hrdi, hwords, fun a ha => ?_⟩
  refine (hkept a (ha 22 (by decide))).trans (hmem a fun i hi => ?_)
  rw [hlen] at hi
  rw [halign]
  exact ha i (by omega)

/-- The frame for an exception that interrupts a processor. -/
def interruptedFrame (vector : UInt8) (errorCode : UInt64) (cpu : Cpu) : TrapFrameEarly where
  r15 := cpu.machine.regs .r15
  r14 := cpu.machine.regs .r14
  r13 := cpu.machine.regs .r13
  r12 := cpu.machine.regs .r12
  r11 := cpu.machine.regs .r11
  r10 := cpu.machine.regs .r10
  r9 := cpu.machine.regs .r9
  r8 := cpu.machine.regs .r8
  rsi := cpu.machine.regs .rsi
  rdi := cpu.machine.regs .rdi
  rbp := cpu.machine.regs .rbp
  rdx := cpu.machine.regs .rdx
  rcx := cpu.machine.regs .rcx
  rbx := cpu.machine.regs .rbx
  rax := cpu.machine.regs .rax
  vector := vector.toUInt64
  errorCode := frameErrorCode vector errorCode
  rip := cpu.machine.rip
  cs := cpu.cs
  rflags := cpu.rflags
  rsp := cpu.machine.regs .rsp
  ss := cpu.ss

theorem readTrapFrameEarly_eq {mem : UInt64 → UInt64} {a : UInt64} {vector : UInt8}
    {errorCode : UInt64} {cpu : Cpu}
    (hframe : words mem a 22 = (frameWords vector errorCode cpu).reverse) :
    readTrapFrameEarly mem a = interruptedFrame vector errorCode cpu := by
  simp only [words, frameWords, savedRegs, List.map_cons, List.map_nil, List.cons_append,
    List.nil_append, List.reverse_cons, List.reverse_nil, List.cons.injEq, and_true,
    UInt64.add_assoc, UInt64.reduceAdd] at hframe
  simp only [readTrapFrameEarly, readTrapFrame, interruptedFrame, UInt64.add_zero, hframe]

theorem toNat_align (sp : UInt64) : (sp &&& ~~~0xf).toNat = sp.toNat / 16 * 16 := by
  rw [UInt64.toNat_and]
  exact and_highMask 4 64 (by omega) sp.toNat_lt

section Entered

variable {image : IsrImage} {vector : UInt8} {errorCode : UInt64} {cpu cpu' : Cpu}

theorem Entered.returnAddress (h : Entered image vector errorCode cpu cpu') :
    cpu'.machine.mem (cpu'.machine.regs .rsp) = image.returnAddress :=
  List.head_eq_of_cons_eq h.words

theorem Entered.frame (h : Entered image vector errorCode cpu cpu') :
    StackCode.words cpu'.machine.mem (cpu'.machine.regs .rdi) 22 =
      (frameWords vector errorCode cpu).reverse := by
  rw [h.rdi]
  exact List.tail_eq_of_cons_eq h.words

theorem Entered.base (h : Entered image vector errorCode cpu cpu') :
    cpu'.machine.regs .rsp + 8 = (cpu.machine.regs .rsp &&& ~~~0xf) - 8 * UInt64.ofNat 22 := by
  rw [h.rsp]
  exact sub_eight_mul_add _ (n := 23) (k := 22) (by omega)

theorem Entered.aligned (h : Entered image vector errorCode cpu cpu') :
    (cpu'.machine.regs .rdi).toNat % 16 = 0 := by
  have hsize : (8 * UInt64.ofNat 22 : UInt64).toNat = 176 := rfl
  have halign := toNat_align (cpu.machine.regs .rsp)
  rw [h.rdi, h.base, UInt64.toNat_sub, hsize]
  omega

end Entered

/-- Stubs of sixteen bytes, one behind the other. -/
def packedStubs (vector : UInt8) : UInt64 := 0x1000 + 16 * vector.toUInt64

theorem packedStubs_inj (v : UInt8) (_ : v < 32) (w : UInt8) (_ : w < 32)
    (h : packedStubs v = packedStubs w) : v = w := by
  have hnat := congrArg UInt64.toNat h
  rw [packedStubs, packedStubs, UInt64.toNat_add, UInt64.toNat_add, UInt64.toNat_mul,
    UInt64.toNat_mul, UInt8.toNat_toUInt64, UInt8.toNat_toUInt64] at hnat
  have hv := v.toNat_lt
  have hw := w.toNat_lt
  apply UInt8.toNat_inj.mp
  simp only [UInt64.reduceToNat] at hnat
  omega

def packedImage : IsrImage := ⟨packedStubs, 0x1400, 0x1234, 0x1480, 0x1481, packedStubs_inj⟩

/-- A table with 64-bit code at the selector of the gates. -/
def loaderGdt : Gdt :=
  [0x0000000000000000, 0x00009b000000ffff, 0x000093000000ffff, 0x00cf9b000000ffff,
    0x00cf93000000ffff, 0x00209b0000000000, 0x0000930000000000]

/-- A processor in the middle of the stack of `bootLayout`. -/
def bootCpu : Cpu := ⟨⟨fun _ => 0x7008, 0x2000, fun _ => 0⟩, 0x202, 0x28, 0x30⟩

def bootLayout : StackLayout where
  low := 0x6000
  high := 0x8000
  handlerData := {0xa000}
  handlerData_off_stack := by
    rintro a rfl
    decide

section Stack

variable {L : StackLayout} {sp : UInt64}

theorem toNat_eight_mul {i : Nat} (hi : i ≤ 23) : (8 * UInt64.ofNat i).toNat = 8 * i := by
  have height : (8 : UInt64).toNat = 8 := rfl
  rw [UInt64.toNat_mul, UInt64.toNat_ofNat', height]
  omega

theorem toNat_frameWord (hroom : HasRoom L sp) {i : Nat} (hi : i ≤ 23) :
    ((sp &&& ~~~0xf) - 8 * UInt64.ofNat i).toNat = sp.toNat / 16 * 16 - 8 * i := by
  have hlow := hroom.1
  have hsp := sp.toNat_lt
  rw [UInt64.toNat_sub, toNat_align, toNat_eight_mul hi]
  omega

theorem frameWord_free (hroom : HasRoom L sp) {i : Nat} (hi : i < 23) :
    L.low ≤ (sp &&& ~~~0xf) - 8 * UInt64.ofNat (i + 1) ∧
      (sp &&& ~~~0xf) - 8 * UInt64.ofNat (i + 1) < sp := by
  have hword := toNat_frameWord hroom (Nat.succ_le_of_lt hi)
  have hlow := hroom.1
  rw [UInt64.le_iff_toNat_le, UInt64.lt_iff_toNat_lt, hword]
  omega

theorem frameWord_kept (hroom : HasRoom L sp) {n i : Nat} (hn : n ≤ 23) (hi : i < n) :
    (sp &&& ~~~0xf) - 8 * UInt64.ofNat (i + 1) ∉
      L.scratch ((sp &&& ~~~0xf) - 8 * UInt64.ofNat n) := by
  obtain ⟨hlow, hhigh⟩ := frameWord_free hroom (Nat.lt_of_lt_of_le hi hn)
  rintro (⟨-, hbelow⟩ | hdata)
  · rw [UInt64.lt_iff_toNat_lt, toNat_frameWord hroom (Nat.le_trans hi hn),
      toNat_frameWord hroom hn] at hbelow
    omega
  · exact L.handlerData_off_stack _ hdata ⟨hlow, UInt64.lt_of_lt_of_le hhigh hroom.2⟩

theorem scratch_mono (hroom : HasRoom L sp) {i : Nat} (hi : i < 23) {a : UInt64}
    (ha : a ∉ L.scratch sp) : a ∉ L.scratch ((sp &&& ~~~0xf) - 8 * UInt64.ofNat (i + 1)) := by
  rintro (⟨hlow, hbelow⟩ | hdata)
  · exact ha (.inl ⟨hlow, UInt64.lt_trans hbelow (frameWord_free hroom hi).2⟩)
  · exact ha (.inr hdata)

end Stack

theorem iretq_eq {m : Machine Reg} {rip cs rflags rsp ss : UInt64}
    (hwords : words m.mem (m.regs .rsp) 5 = [rip, cs, rflags, rsp, ss])
    (rflags' cs' ss' : UInt64) :
    iretq ⟨m, rflags', cs', ss'⟩ = ⟨jump (setReg m .rsp rsp) rip, rflags, cs, ss⟩ := by
  simp only [words, List.cons.injEq, and_true, UInt64.add_assoc] at hwords
  obtain ⟨hrip, hcs, hrflags, hrsp, hss⟩ := hwords
  rw [← hrip, ← hcs, ← hrflags, ← hrsp, ← hss]
  rfl

/-- What the frame holds behind the registers, from its lower end. -/
def frameTail (vector : UInt8) (errorCode : UInt64) (cpu : Cpu) : List UInt64 :=
  [vector.toUInt64, frameErrorCode vector errorCode] ++
    [cpu.machine.rip, cpu.cs, cpu.rflags, cpu.machine.regs .rsp, cpu.ss]

theorem frameWords_reverse (vector : UInt8) (errorCode : UInt64) (cpu : Cpu) :
    (frameWords vector errorCode cpu).reverse =
      savedRegs.reverse.map cpu.machine.regs ++ frameTail vector errorCode cpu := by
  rw [frameWords, List.reverse_append, List.map_reverse]
  rfl

theorem trapExit_eq {image : IsrImage} {vector : UInt8} {errorCode : UInt64} {cpu : Cpu}
    {after : Machine Reg} (hrip : after.rip = image.returnAddress)
    (hframe : words after.mem (after.regs .rsp) 22 = (frameWords vector errorCode cpu).reverse)
    (rflags cs ss : UInt64) :
    trapExit image ⟨after, rflags, cs, ss⟩ =
      some ⟨{ cpu.machine with mem := after.mem }, cpu.rflags, cpu.cs, cpu.ss⟩ := by
  have hexit : isrCommonExit = savedRegs.reverse.map .pop ++ [.add 16 .rsp] := rfl
  obtain ⟨hmem, -, hsp, hpops, -⟩ :=
    exec_pops .rsp after savedRegs.reverse (by decide) (by decide)
  rw [trapExit, if_pos hrip, hexit, exec_append]
  generalize exec .rsp after (savedRegs.reverse.map .pop) = popped at hmem hsp hpops ⊢
  rw [words_add after.mem _ 15 7, frameWords_reverse] at hframe
  obtain ⟨hsaved, htail⟩ := List.append_inj hframe (by rw [length_words]; rfl)
  have hregs : ∀ r, r ≠ .rsp → popped.regs r = cpu.machine.regs r := by
    intro r hr
    exact List.map_inj_left.mp (hpops.trans hsaved) r (List.mem_reverse.mpr (mem_savedRegs hr))
  -- behind the vector and the error code are the words for `iretq`
  rw [words_add after.mem _ 2 5, frameTail] at htail
  obtain ⟨-, hiret⟩ := List.append_inj htail (by rw [length_words]; rfl)
  have hbase : (exec .rsp popped [.add 16 .rsp]).regs .rsp =
      after.regs .rsp + 8 * UInt64.ofNat 15 + 8 * UInt64.ofNat 2 :=
    (setReg_self ..).trans (congrArg (· + 16) hsp)
  have hkept : (exec .rsp popped [.add 16 .rsp]).mem = after.mem := hmem
  rw [← hbase, ← hkept] at hiret
  rw [iretq_eq hiret]
  congr 2
  refine congrArg₂ (fun regs mem => (⟨regs, cpu.machine.rip, mem⟩ : Machine Reg)) ?_ hmem
  funext r
  by_cases hr : r = .rsp
  · rw [hr, setReg_self]
  · rw [setReg_of_ne _ _ hr]
    exact (setReg_of_ne _ _ hr).trans (hregs r hr)

end Mcsos.TrapFrames
