import Mathlib.Algebra.Group.Nat.Defs
import Mcsos.WordMachine

/-!
Straight-line code that pushes, pops and moves words, as it stands at the entry and the exit of
an interrupt handler, and the words that are then on the stack.
-/

namespace Mcsos.StackCode

open Mcsos.WordMachine

universe u

/-- The instructions, with their operands in the order of the assembler. -/
inductive Op (R : Type u) where
  | pushImm (value : UInt64)
  | push (src : R)
  | pop (dst : R)
  | mov (src dst : R)
  | add (value : UInt64) (dst : R)
  | sub (value : UInt64) (dst : R)
  | store (src : R) (disp : UInt64) (base : R)
  | storeImm (value disp : UInt64) (base : R)
  | load (disp : UInt64) (base dst : R)
deriving DecidableEq, Repr

section Code

variable {R : Type u} [DecidableEq R]

def pushWord (sp : R) (m : Machine R) (w : UInt64) : Machine R :=
  { m with
    regs := Function.update m.regs sp (m.regs sp - 8)
    mem := Function.update m.mem (m.regs sp - 8) w }

def setReg (m : Machine R) (dst : R) (w : UInt64) : Machine R :=
  { m with regs := Function.update m.regs dst w }

def jump (m : Machine R) (target : UInt64) : Machine R := { m with rip := target }

/-- One instruction, with `sp` the stack pointer.  The code is straight-line, so that the
instruction pointer is not followed through it. -/
def Op.exec (sp : R) (m : Machine R) : Op R → Machine R
  | .pushImm w => pushWord sp m w
  | .push src => pushWord sp m (m.regs src)
  | .pop dst => setReg (setReg m sp (m.regs sp + 8)) dst (m.mem (m.regs sp))
  | .mov src dst => setReg m dst (m.regs src)
  | .add w dst => setReg m dst (m.regs dst + w)
  | .sub w dst => setReg m dst (m.regs dst - w)
  | .store src disp base =>
      { m with mem := Function.update m.mem (m.regs base + disp) (m.regs src) }
  | .storeImm w disp base => { m with mem := Function.update m.mem (m.regs base + disp) w }
  | .load disp base dst => setReg m dst (m.mem (m.regs base + disp))

def exec (sp : R) (m : Machine R) (code : List (Op R)) : Machine R :=
  code.foldl (Op.exec sp) m

def pushWords (sp : R) (m : Machine R) (ws : List UInt64) : Machine R :=
  ws.foldl (pushWord sp) m

@[simp]
theorem setReg_self (m : Machine R) (dst : R) (w : UInt64) : (setReg m dst w).regs dst = w :=
  Function.update_self ..

theorem setReg_of_ne (m : Machine R) {dst r : R} (w : UInt64) (hr : r ≠ dst) :
    (setReg m dst w).regs r = m.regs r :=
  Function.update_of_ne hr ..

theorem pushWord_sp (sp : R) (m : Machine R) (w : UInt64) :
    (pushWord sp m w).regs sp = m.regs sp - 8 :=
  Function.update_self ..

end Code

/-- The words from an address on. -/
def words (mem : UInt64 → UInt64) : UInt64 → Nat → List UInt64
  | _, 0 => []
  | a, n + 1 => mem a :: words mem (a + 8) n

section Words

variable {mem mem' : UInt64 → UInt64}

@[simp]
theorem length_words (mem : UInt64 → UInt64) (a : UInt64) (n : Nat) :
    (words mem a n).length = n := by
  induction n generalizing a with
  | zero => rfl
  | succ n ih => rw [words, List.length_cons, ih]

theorem words_add (mem : UInt64 → UInt64) (a : UInt64) (n k : Nat) :
    words mem a (n + k) = words mem a n ++ words mem (a + 8 * UInt64.ofNat n) k := by
  induction n generalizing a with
  | zero =>
      rw [Nat.zero_add]
      have hzero : a + 8 * UInt64.ofNat 0 = a := UInt64.add_zero a
      rw [hzero]
      rfl
  | succ n ih =>
      have hnext : a + 8 + 8 * UInt64.ofNat n = a + 8 * UInt64.ofNat (n + 1) := by
        rw [UInt64.ofNat_add, UInt64.mul_add, UInt64.add_assoc, UInt64.add_comm 8]
        rfl
      rw [Nat.succ_add, words, words, ih, hnext]
      rfl

theorem words_congr {a : UInt64} {n : Nat}
    (h : ∀ i < n, mem' (a + 8 * UInt64.ofNat i) = mem (a + 8 * UInt64.ofNat i)) :
    words mem' a n = words mem a n := by
  induction n with
  | zero => rfl
  | succ n ih =>
      rw [words_add, words_add, ih fun i hi => h i (Nat.lt_succ_of_lt hi)]
      exact congrArg (_ ++ [·]) (h n (Nat.lt_succ_self n))

theorem sub_sub_eq (a b c : UInt64) : a - b - c = a - (b + c) := by
  rw [UInt64.sub_eq_add_neg, UInt64.sub_eq_add_neg, UInt64.sub_eq_add_neg a, UInt64.neg_add,
    UInt64.sub_eq_add_neg, UInt64.add_assoc]

theorem sub_eight_mul_add (a : UInt64) {n k : Nat} (hk : k ≤ n) :
    a - 8 * UInt64.ofNat n + 8 * UInt64.ofNat (n - k) = a - 8 * UInt64.ofNat k := by
  have hsum : 8 * UInt64.ofNat n = 8 * UInt64.ofNat k + 8 * UInt64.ofNat (n - k) := by
    rw [← UInt64.mul_add, ← UInt64.ofNat_add, Nat.add_sub_cancel' hk]
  rw [hsum, ← sub_sub_eq, UInt64.sub_add_cancel]

/-- The multiples of eight below the size of the address space are different. -/
theorem eight_mul_inj {i k : Nat} (hi : i < 2 ^ 61) (hk : k < 2 ^ 61)
    (h : 8 * UInt64.ofNat i = 8 * UInt64.ofNat k) : i = k := by
  have hnat := congrArg UInt64.toNat h
  rw [UInt64.toNat_mul, UInt64.toNat_mul, UInt64.toNat_ofNat', UInt64.toNat_ofNat'] at hnat
  have height : (8 : UInt64).toNat = 8 := rfl
  rw [height] at hnat
  omega

theorem add_eight_mul_ne {a : UInt64} {i k : Nat} (hi : i < 2 ^ 61) (hk : k < 2 ^ 61)
    (hne : i ≠ k) : a + 8 * UInt64.ofNat i ≠ a + 8 * UInt64.ofNat k :=
  fun h => hne (eight_mul_inj hi hk ((UInt64.add_right_inj a).mp h))

end Words

section Pushing

variable {R : Type u} [DecidableEq R] {sp : R}

theorem pushWord_words {m : Machine R} {n : Nat} (hn : n < 2 ^ 61) (w : UInt64) :
    words (pushWord sp m w).mem ((pushWord sp m w).regs sp) (n + 1) =
      w :: words m.mem (m.regs sp) n := by
  rw [pushWord_sp, words, UInt64.sub_add_cancel]
  congr 1
  · exact Function.update_self ..
  · refine words_congr fun i hi => Function.update_of_ne ?_ ..
    intro heq
    -- the word that is pushed is one in front of those that are there
    have hbase : m.regs sp = m.regs sp - 8 + 8 * UInt64.ofNat 1 :=
      (UInt64.sub_add_cancel ..).symm
    have hfront : m.regs sp - 8 + 8 * UInt64.ofNat (1 + i) =
        m.regs sp - 8 + 8 * UInt64.ofNat 0 := by
      rw [UInt64.ofNat_add, UInt64.mul_add, ← UInt64.add_assoc, ← hbase, heq]
      exact (UInt64.add_zero _).symm
    exact add_eight_mul_ne (by omega) (by omega) (by omega) hfront

theorem pushWords_cons (m : Machine R) (w : UInt64) (ws : List UInt64) :
    pushWords sp m (w :: ws) = pushWords sp (pushWord sp m w) ws := rfl

theorem pushWords_sp (sp : R) (m : Machine R) (ws : List UInt64) :
    (pushWords sp m ws).regs sp = m.regs sp - 8 * UInt64.ofNat ws.length := by
  induction ws generalizing m with
  | nil => exact (UInt64.sub_zero _).symm
  | cons w ws ih =>
      have hlen : 8 * UInt64.ofNat (w :: ws).length = 8 + 8 * UInt64.ofNat ws.length := by
        rw [List.length_cons, UInt64.ofNat_add, UInt64.mul_add, UInt64.add_comm]
        rfl
      rw [pushWords_cons, ih, pushWord_sp, hlen, sub_sub_eq]

theorem pushWords_regs (m : Machine R) (ws : List UInt64) {r : R} (hr : r ≠ sp) :
    (pushWords sp m ws).regs r = m.regs r := by
  induction ws generalizing m with
  | nil => rfl
  | cons w ws ih =>
      rw [pushWords_cons, ih]
      exact Function.update_of_ne hr ..

theorem pushWords_append (m : Machine R) (ws us : List UInt64) :
    pushWords sp m (ws ++ us) = pushWords sp (pushWords sp m ws) us :=
  List.foldl_append

theorem pushWords_jump (m : Machine R) (target : UInt64) (ws : List UInt64) :
    pushWords sp (jump m target) ws = jump (pushWords sp m ws) target := by
  induction ws generalizing m with
  | nil => rfl
  | cons w ws ih => exact ih (pushWord sp m w)

theorem pushWords_words (sp : R) (m : Machine R) (ws : List UInt64) {n : Nat}
    (hn : ws.length + n ≤ 2 ^ 61) :
    words (pushWords sp m ws).mem ((pushWords sp m ws).regs sp) (ws.length + n) =
      ws.reverse ++ words m.mem (m.regs sp) n := by
  induction ws generalizing m n with
  | nil =>
      rw [List.length_nil, Nat.zero_add]
      rfl
  | cons w ws ih =>
      rw [List.length_cons] at hn
      have hrest := ih (pushWord sp m w) (n := n + 1) (by omega)
      rw [pushWord_words (by omega)] at hrest
      rw [List.length_cons, Nat.add_right_comm, Nat.add_assoc, pushWords_cons, hrest,
        List.reverse_cons, List.append_assoc]
      rfl

/-- Pushing changes the words in front of the stack only. -/
theorem pushWords_mem (sp : R) (m : Machine R) (ws : List UInt64) {a : UInt64}
    (ha : ∀ i < ws.length, a ≠ m.regs sp - 8 * UInt64.ofNat (i + 1)) :
    (pushWords sp m ws).mem a = m.mem a := by
  induction ws generalizing m with
  | nil => rfl
  | cons w ws ih =>
      rw [pushWords_cons, ih]
      · refine Function.update_of_ne ?_ ..
        exact ha 0 (Nat.zero_lt_succ _)
      · intro i hi
        have hlen : 8 * UInt64.ofNat (i + 1 + 1) = 8 + 8 * UInt64.ofNat (i + 1) := by
          rw [UInt64.ofNat_add (i + 1), UInt64.mul_add, UInt64.add_comm]
          rfl
        have hne := ha (i + 1) (Nat.succ_lt_succ hi)
        rwa [hlen, ← sub_sub_eq, ← pushWord_sp sp m w] at hne

theorem exec_append (m : Machine R) (first second : List (Op R)) :
    exec sp m (first ++ second) = exec sp (exec sp m first) second :=
  List.foldl_append

theorem exec_pushImms (m : Machine R) (ws : List UInt64) :
    exec sp m (ws.map .pushImm) = pushWords sp m ws := List.foldl_map

theorem exec_pushes (m : Machine R) {srcs : List R} (hsp : sp ∉ srcs) :
    exec sp m (srcs.map .push) = pushWords sp m (srcs.map m.regs) := by
  induction srcs generalizing m with
  | nil => rfl
  | cons src srcs ih =>
      rw [List.mem_cons, not_or] at hsp
      have hregs : srcs.map (pushWord sp m (m.regs src)).regs = srcs.map m.regs := by
        refine List.map_congr_left fun r hr => Function.update_of_ne ?_ ..
        rintro rfl
        exact hsp.2 hr
      have hrest := ih (pushWord sp m (m.regs src)) hsp.2
      rw [hregs] at hrest
      exact hrest

end Pushing

section Popping

variable {R : Type u} [DecidableEq R] {sp : R}

theorem exec_pops (sp : R) (m : Machine R) (dsts : List R) (hsp : sp ∉ dsts) (hnodup : dsts.Nodup) :
    (exec sp m (dsts.map .pop)).mem = m.mem ∧
      (exec sp m (dsts.map .pop)).rip = m.rip ∧
      (exec sp m (dsts.map .pop)).regs sp = m.regs sp + 8 * UInt64.ofNat dsts.length ∧
      dsts.map (exec sp m (dsts.map .pop)).regs = words m.mem (m.regs sp) dsts.length ∧
      ∀ r, r ≠ sp → r ∉ dsts → (exec sp m (dsts.map .pop)).regs r = m.regs r := by
  induction dsts generalizing m with
  | nil => exact ⟨rfl, rfl, (UInt64.add_zero _).symm, rfl, fun _ _ _ => rfl⟩
  | cons dst dsts ih =>
      rw [List.mem_cons, not_or] at hsp
      obtain ⟨hnew, hnodup⟩ := List.nodup_cons.mp hnodup
      let next := Op.exec sp m (.pop dst)
      have hnextsp : next.regs sp = m.regs sp + 8 :=
        (setReg_of_ne _ _ hsp.1).trans (setReg_self ..)
      have hnextdst : next.regs dst = m.mem (m.regs sp) := setReg_self ..
      obtain ⟨hmem, hrip, hregs, hwords, hother⟩ := ih next hsp.2 hnodup
      refine ⟨hmem, hrip, ?_, ?_, ?_⟩
      · have hlen : 8 * UInt64.ofNat (dst :: dsts).length = 8 + 8 * UInt64.ofNat dsts.length := by
          rw [List.length_cons, UInt64.ofNat_add, UInt64.mul_add, UInt64.add_comm]
          rfl
        rw [hlen, ← UInt64.add_assoc, ← hnextsp]
        exact hregs
      · rw [List.length_cons, words, ← hnextsp, List.map_cons]
        exact congrArg₂ List.cons ((hother dst (Ne.symm hsp.1) hnew).trans hnextdst) hwords
      · intro r hr hmem
        rw [List.mem_cons, not_or] at hmem
        refine (hother r hr hmem.2).trans ?_
        exact (setReg_of_ne _ _ hmem.1).trans (setReg_of_ne _ _ hr)

end Popping

/-- Stores of registers at different offsets from one base leave every register in its slot,
and all other words alone. -/
theorem exec_stores {R : Type u} [DecidableEq R] (sp : R) (m : Machine R) (base : R)
    (slots : List (R × UInt64)) (hnodup : (slots.map Prod.snd).Nodup) :
    (exec sp m (slots.map fun slot => .store slot.1 slot.2 base)).regs = m.regs ∧
      (exec sp m (slots.map fun slot => .store slot.1 slot.2 base)).rip = m.rip ∧
      (∀ slot ∈ slots,
        (exec sp m (slots.map fun slot => .store slot.1 slot.2 base)).mem
          (m.regs base + slot.2) = m.regs slot.1) ∧
      ∀ a, (∀ slot ∈ slots, a ≠ m.regs base + slot.2) →
        (exec sp m (slots.map fun slot => .store slot.1 slot.2 base)).mem a = m.mem a := by
  induction slots generalizing m with
  | nil => exact ⟨rfl, rfl, fun slot hslot => absurd hslot List.not_mem_nil, fun _ _ => rfl⟩
  | cons slot slots ih =>
      obtain ⟨hnew, hnodup⟩ := List.nodup_cons.mp hnodup
      let next := Op.exec sp m (.store slot.1 slot.2 base)
      obtain ⟨hregs, hrip, hin, hout⟩ := ih next hnodup
      refine ⟨hregs, hrip, ?_, ?_⟩
      · intro other hother
        rcases List.mem_cons.mp hother with rfl | hmem
        · refine (hout _ ?_).trans (Function.update_self ..)
          intro later hlater heq
          refine hnew (List.mem_map.mpr ⟨later, hlater, ?_⟩)
          exact ((UInt64.add_right_inj _).mp heq).symm
        · exact hin other hmem
      · intro a ha
        refine (hout a fun later hlater => ha later (List.mem_cons_of_mem slot hlater)).trans ?_
        exact Function.update_of_ne (ha slot List.mem_cons_self) ..

end Mcsos.StackCode
