import Mathlib.Data.List.Nodup
import Mathlib.Logic.Function.Basic

/-!
A machine with registers `R` and a memory of 64-bit words, and the few instructions
that move words between the two.  Addresses are those of whole words.
-/

namespace Mcsos.WordMachine

universe u

structure Machine (R : Type u) where
  regs : R → UInt64
  rip : UInt64
  mem : UInt64 → UInt64

/-- The instructions, with their operands in the order of the assembler. -/
inductive Instr (R : Type u) where
  | lea (address : UInt64) (dst : R)
  | store (src : R) (disp : UInt64) (base : R)
  | load (disp : UInt64) (base dst : R)
  | jmp (disp : UInt64) (base : R)
  | ret
deriving DecidableEq, Repr

/-- The instruction at an address and the address of the one behind it. -/
abbrev Program (R : Type u) := UInt64 → Option (Instr R × UInt64)

variable {R : Type u} [DecidableEq R]

/-- One instruction, with `next` the address behind it and `sp` the stack pointer. -/
def Instr.exec (sp : R) (next : UInt64) (m : Machine R) : Instr R → Machine R
  | .lea address dst => { m with regs := Function.update m.regs dst address, rip := next }
  | .store src disp base =>
      { m with mem := Function.update m.mem (m.regs base + disp) (m.regs src), rip := next }
  | .load disp base dst =>
      { m with regs := Function.update m.regs dst (m.mem (m.regs base + disp)), rip := next }
  | .jmp disp base => { m with rip := m.mem (m.regs base + disp) }
  | .ret =>
      { m with regs := Function.update m.regs sp (m.regs sp + 8), rip := m.mem (m.regs sp) }

/-- The machine is stuck where the program has no instruction. -/
def step (sp : R) (program : Program R) (m : Machine R) : Option (Machine R) :=
  (program m.rip).map fun fetched => fetched.1.exec sp fetched.2 m

def run (sp : R) (program : Program R) : Nat → Machine R → Option (Machine R)
  | 0, m => some m
  | n + 1, m => (step sp program m).bind (run sp program n)

/-- A call pushes the return address. -/
def call (sp : R) (target returnAddress : UInt64) (m : Machine R) : Machine R where
  regs := Function.update m.regs sp (m.regs sp - 8)
  rip := target
  mem := Function.update m.mem (m.regs sp - 8) returnAddress

/-- The program holds the instructions one behind the other, from `start` to `stop`. -/
def Block (program : Program R) : UInt64 → List (Instr R) → UInt64 → Prop
  | start, [], stop => start = stop
  | start, i :: code, stop =>
      ∃ next, program start = some (i, next) ∧ Block program next code stop

variable {sp : R} {program : Program R} {m : Machine R}

omit [DecidableEq R] in
theorem Block.split {first second : List (Instr R)} {start stop : UInt64}
    (h : Block program start (first ++ second) stop) :
    ∃ middle, Block program start first middle ∧ Block program middle second stop := by
  induction first generalizing start with
  | nil => exact ⟨start, rfl, h⟩
  | cons i first ih =>
      obtain ⟨next, hfetch, hrest⟩ := h
      obtain ⟨middle, hfirst, hsecond⟩ := ih hrest
      exact ⟨middle, ⟨next, hfetch, hfirst⟩, hsecond⟩

theorem run_one {m' : Machine R} (h : step sp program m = some m') :
    run sp program 1 m = some m' := by
  rw [run, h]
  rfl

theorem run_add {n k : Nat} {m' : Machine R} (h : run sp program n m = some m') :
    run sp program (n + k) m = run sp program k m' := by
  induction n generalizing m with
  | zero =>
      cases h
      rw [Nat.zero_add]
  | succ n ih =>
      obtain ⟨next, hstep, hrest⟩ := Option.bind_eq_some_iff.mp h
      rw [Nat.succ_add, run, hstep]
      exact ih hrest

theorem step_block (sp : R) {i : Instr R} {code : List (Instr R)} {stop : UInt64}
    (h : Block program m.rip (i :: code) stop) :
    ∃ next, step sp program m = some (i.exec sp next m) ∧ Block program next code stop := by
  obtain ⟨next, hfetch, hrest⟩ := h
  refine ⟨next, ?_, hrest⟩
  rw [step, hfetch]
  rfl

/-- Stores of registers at offsets from one base. -/
def stores (base : R) (slots : List (R × UInt64)) : List (Instr R) :=
  slots.map fun slot => .store slot.1 slot.2 base

/-- Loads of registers from offsets from one base. -/
def loads (base : R) (slots : List (R × UInt64)) : List (Instr R) :=
  slots.map fun slot => .load slot.2 base slot.1

/-- Stores to different offsets leave every register in its slot, and all other words
alone. -/
theorem run_stores (sp : R) {base : R} {slots : List (R × UInt64)} {stop : UInt64}
    (hblock : Block program m.rip (stores base slots) stop)
    (hnodup : (slots.map Prod.snd).Nodup) :
    ∃ m', run sp program slots.length m = some m' ∧ m'.regs = m.regs ∧ m'.rip = stop ∧
      (∀ slot ∈ slots, m'.mem (m.regs base + slot.2) = m.regs slot.1) ∧
      ∀ a, (∀ slot ∈ slots, a ≠ m.regs base + slot.2) → m'.mem a = m.mem a := by
  induction slots generalizing m with
  | nil =>
      refine ⟨m, rfl, rfl, hblock, ?_, fun _ _ => rfl⟩
      intro slot hslot
      cases hslot
  | cons slot slots ih =>
      obtain ⟨hnew, hnodup⟩ := List.nodup_cons.mp hnodup
      obtain ⟨next, hstep, hrest⟩ := step_block sp hblock
      obtain ⟨m', hrun, hregs, hrip, hin, hout⟩ :=
        ih (m := (Instr.store slot.1 slot.2 base).exec sp next m) hrest hnodup
      refine ⟨m', ?_, hregs, hrip, ?_, ?_⟩
      · rw [List.length_cons, run, hstep]
        exact hrun
      · intro other hother
        rcases List.mem_cons.mp hother with rfl | hmem
        · rw [hout]
          · exact Function.update_self ..
          · intro later hlater heq
            refine hnew (List.mem_map.mpr ⟨later, hlater, ?_⟩)
            exact (UInt64.add_right_inj _ |>.mp heq).symm
        · exact hin other hmem
      · intro a ha
        rw [hout a fun later hlater => ha later (List.mem_cons_of_mem slot hlater)]
        exact Function.update_of_ne (ha slot List.mem_cons_self) ..

/-- Loads into different registers, none of them the base, fill every register from its
slot. -/
theorem run_loads (sp : R) {base : R} {slots : List (R × UInt64)} {stop : UInt64}
    (hblock : Block program m.rip (loads base slots) stop)
    (hnodup : (slots.map Prod.fst).Nodup) (hbase : base ∉ slots.map Prod.fst) :
    ∃ m', run sp program slots.length m = some m' ∧ m'.mem = m.mem ∧ m'.rip = stop ∧
      (∀ slot ∈ slots, m'.regs slot.1 = m.mem (m.regs base + slot.2)) ∧
      ∀ r, r ∉ slots.map Prod.fst → m'.regs r = m.regs r := by
  induction slots generalizing m with
  | nil =>
      refine ⟨m, rfl, rfl, hblock, ?_, fun _ _ => rfl⟩
      intro slot hslot
      cases hslot
  | cons slot slots ih =>
      obtain ⟨hnew, hnodup⟩ := List.nodup_cons.mp hnodup
      rw [List.map_cons, List.mem_cons, not_or] at hbase
      obtain ⟨next, hstep, hrest⟩ := step_block sp hblock
      obtain ⟨m', hrun, hmem, hrip, hin, hout⟩ :=
        ih (m := (Instr.load slot.2 base slot.1).exec sp next m) hrest hnodup hbase.2
      have hkept : (Function.update m.regs slot.1 (m.mem (m.regs base + slot.2))) base =
          m.regs base := Function.update_of_ne hbase.1 ..
      refine ⟨m', ?_, hmem, hrip, ?_, ?_⟩
      · rw [List.length_cons, run, hstep]
        exact hrun
      · intro other hother
        rcases List.mem_cons.mp hother with rfl | hmem
        · rw [hout other.1 hnew]
          exact Function.update_self ..
        · rw [hin other hmem]
          exact congrArg (fun b => m.mem (b + other.2)) hkept
      · intro r hr
        rw [List.map_cons, List.mem_cons, not_or] at hr
        rw [hout r hr.2]
        exact Function.update_of_ne hr.1 ..

end Mcsos.WordMachine
