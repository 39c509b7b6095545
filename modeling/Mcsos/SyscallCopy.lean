import Mcsos.ByteMemory
import Mcsos.SyscallRegion

/-!
Copies from user memory, `mcsos_copy_from_user` of `mcsos/kernel/syscall/syscall.c`.  The
buffer and the user range may overlap, and the copy goes forward.
-/

namespace Mcsos.SyscallCopy

open Mcsos.ByteMemory
open Mcsos.SyscallModel
open Mcsos.SyscallRegion

/-- The memory after the first bytes have been copied, one after the other. -/
def copyForward (mem : ByteMem) (dst src : Nat) : Nat → ByteMem
  | 0 => mem
  | n + 1 =>
      let copied := copyForward mem dst src n
      Function.update copied (dst + n) (copied (src + n))

/-- Where the byte with number `i` of the target comes from.  If the target starts behind the
source, bytes that were copied are copied again once the source has reached the target. -/
def origin (dst src i : Nat) : Nat := if src < dst then src + i % (dst - src) else src + i

theorem copyForward_outside {mem : ByteMem} {dst src n a : Nat} (h : a < dst ∨ dst + n ≤ a) :
    copyForward mem dst src n a = mem a := by
  induction n with
  | zero => rfl
  | succ n ih =>
      rw [copyForward, Function.update_of_ne (by omega)]
      exact ih (by omega)

theorem copyForward_inside (mem : ByteMem) (dst src : Nat) {n i : Nat} (hi : i < n) :
    copyForward mem dst src n (dst + i) = mem (origin dst src i) := by
  induction n generalizing i with
  | zero => exact absurd hi (Nat.not_lt_zero i)
  | succ n ih =>
      rw [copyForward]
      rcases Nat.lt_succ_iff_lt_or_eq.mp hi with hlt | rfl
      · rw [Function.update_of_ne (by omega)]
        exact ih hlt
      · rw [Function.update_self, origin]
        split
        case isTrue hbehind =>
          rcases Nat.lt_or_ge i (dst - src) with hfirst | hagain
          · rw [copyForward_outside (by omega), Nat.mod_eq_of_lt hfirst]
          · -- The byte has been copied before, to one period further in the target.
            have hsource : src + i = dst + (i - (dst - src)) := by omega
            have hperiod : (i - (dst - src)) % (dst - src) = i % (dst - src) :=
              (Nat.mod_eq_sub_mod hagain).symm
            rw [hsource, ih (by omega), origin, if_pos hbehind, hperiod]
        case isFalse hbefore => rw [copyForward_outside (by omega)]

/-- The memory after the call, its result, and the addresses that it reads from. -/
structure CopyOutcome where
  mem : ByteMem
  ret : Int64
  reads : List Nat

section Copy

variable {σ : Type}

def mcsosCopyFromUser (g : SyscallState σ) (mem : ByteMem) (dst src len : UInt64) : CopyOutcome :=
  if len = 0 then ⟨mem, mcsosOk, []⟩
  else if dst = 0 ∨ src = 0 then ⟨mem, mcsosEinval, []⟩
  else if mcsosUserCheckRange g src len = false then ⟨mem, mcsosEfault, []⟩
  else
    ⟨copyForward mem dst.toNat src.toNat len.toNat, mcsosOk,
      (List.range len.toNat).map (src.toNat + ·)⟩

/-- What a copy is to do: the result says whether the arguments are null or the range is not
the user's; only user bytes are read; nothing but the buffer changes, and that only on
success. -/
structure CopySpec (region : McsosUserRegion) (mem : ByteMem) (dst src len : Nat)
    (outcome : CopyOutcome) : Prop where
  ret : outcome.ret =
    if len = 0 then mcsosOk
    else if dst = 0 ∨ src = 0 then mcsosEinval
    else if region.base ≠ 0 ∧ region.base.toNat ≤ src ∧ src + len ≤ region.limit.toNat then mcsosOk
    else mcsosEfault
  reads : ∀ a ∈ outcome.reads, region.base.toNat ≤ a ∧ a < region.limit.toNat
  failed : outcome.ret ≠ mcsosOk → outcome.mem = mem
  outside : ∀ a, a < dst ∨ dst + len ≤ a → outcome.mem a = mem a
  copied : outcome.ret = mcsosOk → ∀ i, i < len → outcome.mem (dst + i) = mem (origin dst src i)

theorem toNat_eq_zero_iff (a : UInt64) : a.toNat = 0 ↔ a = 0 :=
  ⟨fun h => UInt64.toNat_inj.mp h, fun h => congrArg UInt64.toNat h⟩

theorem copySpec_refused {region : McsosUserRegion} {mem : ByteMem} {dst src len : Nat}
    {ret : Int64}
    (hret : ret =
      if len = 0 then mcsosOk
      else if dst = 0 ∨ src = 0 then mcsosEinval
      else if region.base ≠ 0 ∧ region.base.toNat ≤ src ∧ src + len ≤ region.limit.toNat then
        mcsosOk
      else mcsosEfault)
    (hnone : ret = mcsosOk → len = 0) : CopySpec region mem dst src len ⟨mem, ret, []⟩ where
  ret := hret
  reads a ha := by cases ha
  failed _ := rfl
  outside _ _ := rfl
  copied hok i hi := by
    rw [hnone hok] at hi
    exact absurd hi (Nat.not_lt_zero i)

theorem mcsosCopyFromUser_spec (g : SyscallState σ) (mem : ByteMem) (dst src len : UInt64) :
    CopySpec g.gUserRegion mem dst.toNat src.toNat len.toNat
      (mcsosCopyFromUser g mem dst src len) := by
  have hlen := toNat_eq_zero_iff len
  have hnull : dst.toNat = 0 ∨ src.toNat = 0 ↔ dst = 0 ∨ src = 0 :=
    or_congr (toNat_eq_zero_iff dst) (toNat_eq_zero_iff src)
  have hrange := mcsosUserCheckRange_iff g src len
  rw [mcsosCopyFromUser]
  split
  case isTrue hzero =>
    exact copySpec_refused (if_pos (hlen.mpr hzero)).symm fun _ => hlen.mpr hzero
  case isFalse hpos =>
    have hpos' : len.toNat ≠ 0 := fun heq => hpos (hlen.mp heq)
    rw [UserRange, or_iff_right hpos'] at hrange
    split
    case isTrue harg =>
      refine copySpec_refused ?_ fun hok => by cases hok
      rw [if_neg hpos', if_pos (hnull.mpr harg)]
    case isFalse harg =>
      have harg' := fun hzero => harg (hnull.mp hzero)
      split
      case isTrue hrefused =>
        refine copySpec_refused ?_ fun hok => by cases hok
        rw [if_neg hpos', if_neg harg', if_neg]
        intro huser
        rw [hrange.mpr huser] at hrefused
        cases hrefused
      case isFalse hcheck =>
        have huser := hrange.mp (Bool.not_eq_false _ ▸ hcheck)
        refine ⟨?_, fun a ha => ?_, fun hfailed => absurd rfl hfailed,
          fun a ha => copyForward_outside ha, fun _ i hi => copyForward_inside mem _ _ hi⟩
        · rw [if_neg hpos', if_neg harg', if_pos huser]
        · obtain ⟨i, hi, rfl⟩ := List.mem_map.mp ha
          have hlt := List.mem_range.mp hi
          obtain ⟨-, hlow, hhigh⟩ := huser
          exact ⟨Nat.le_add_right_of_le hlow, by omega⟩

end Copy

end Mcsos.SyscallCopy
