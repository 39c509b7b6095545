import Mcsos.ElfAcceptance
import Mcsos.SyscallModel

namespace Mcsos.SyscallRegion

open Mcsos.ElfAcceptance
open Mcsos.ElfModel
open Mcsos.SyscallModel

variable {σ : Type}

/-- The bytes from `addr` on lie in the region, with sums that do not wrap.  No bytes lie
anywhere. -/
def UserRange (region : McsosUserRegion) (addr len : Nat) : Prop :=
  len = 0 ∨ region.base ≠ 0 ∧ region.base.toNat ≤ addr ∧ addr + len ≤ region.limit.toNat

theorem toNat_last (addr : UInt64) {len : UInt64} (hlen : len ≠ 0) :
    (addr + len - 1).toNat = (addr.toNat + len.toNat - 1) % 2 ^ 64 := by
  have hpos : len.toNat ≠ 0 := fun hzero => hlen (UInt64.toNat_inj.mp hzero)
  have haddr := addr.toNat_lt
  have hlt := len.toNat_lt
  have hone : UInt64.toNat 1 = 1 := rfl
  rw [UInt64.toNat_sub, UInt64.toNat_add, hone]
  omega

theorem refused_iff {p : Prop} [Decidable p] {rest : Bool} :
    (if p then false else rest) = true ↔ ¬p ∧ rest = true := by
  split
  case isTrue h => simp [h]
  case isFalse h => simp [h]

theorem mcsosUserCheckRange_iff (g : SyscallState σ) (addr len : UInt64) :
    mcsosUserCheckRange g addr len = true ↔ UserRange g.gUserRegion addr.toNat len.toNat := by
  rw [mcsosUserCheckRange, UserRange]
  rcases eq_or_ne len 0 with rfl | hlen
  · exact iff_of_true (if_pos rfl) (.inl rfl)
  · have hpos : len.toNat ≠ 0 := fun hzero => hlen (UInt64.toNat_inj.mp hzero)
    have hlast := toNat_last addr hlen
    have haddr := addr.toNat_lt
    have hlt := len.toNat_lt
    have hlimit := g.gUserRegion.limit.toNat_lt
    rw [if_neg hlen, or_iff_right hpos, refused_iff, refused_iff, refused_iff, refused_iff,
      refused_iff, not_or, and_assoc, gt_iff_lt, ge_iff_le, UInt64.le_iff_toNat_le,
      UInt64.lt_iff_toNat_lt, UInt64.lt_iff_toNat_lt, UInt64.lt_iff_toNat_lt,
      UInt64.le_iff_toNat_le, hlast]
    refine and_congr_right fun _ => ?_
    constructor
    · rintro ⟨hregion, habove, hbelow, hwrap, hend, -⟩
      omega
    · rintro ⟨habove, hbelow⟩
      exact ⟨by omega, by omega, by omega, by omega, by omega, rfl⟩

/-- The two checks accept the same ranges of a region, those that lie in it. -/
theorem userRangeChecks_exact (g : SyscallState σ) {region : McsosUserRegion}
    (hbase : region.base ≠ 0) (addr : UInt64) {len : UInt64} (hlen : 0 < len) :
    (mcsosUserCheckRange (mcsosSyscallSetUserRegion g region) addr len = true ↔
        m11ValidateUserRange ⟨region.base, region.limit⟩ addr len = .ok) ∧
      (mcsosUserCheckRange (mcsosSyscallSetUserRegion g region) addr len = true ↔
        region.base < region.limit ∧ region.base ≤ addr ∧
          addr.toNat + len.toNat ≤ region.limit.toNat) ∧
      (m11ValidateUserRange ⟨region.base, region.limit⟩ addr len = .ok ↔
        region.base < region.limit ∧ region.base ≤ addr ∧
          addr.toNat + len.toNat ≤ region.limit.toNat) := by
  have hpos : 0 < len.toNat := hlen
  have hcheck : mcsosUserCheckRange (mcsosSyscallSetUserRegion g region) addr len = true ↔
      region.base < region.limit ∧ region.base ≤ addr ∧
        addr.toNat + len.toNat ≤ region.limit.toNat := by
    have hexact : _ ↔ UserRange region addr.toNat len.toNat :=
      mcsosUserCheckRange_iff (mcsosSyscallSetUserRegion g region) addr len
    rw [hexact, UserRange, UInt64.lt_iff_toNat_lt, UInt64.le_iff_toNat_le]
    constructor
    · rintro (hzero | ⟨-, habove, hbelow⟩)
      · omega
      · exact ⟨by omega, habove, hbelow⟩
    · rintro ⟨-, habove, hbelow⟩
      exact .inr ⟨hbase, habove, hbelow⟩
  have hvalidate : m11ValidateUserRange ⟨region.base, region.limit⟩ addr len = .ok ↔
      region.base < region.limit ∧ region.base ≤ addr ∧
        addr.toNat + len.toNat ≤ region.limit.toNat := by
    rw [m11ValidateUserRange_ok_iff, UInt64.lt_iff_toNat_lt, UInt64.le_iff_toNat_le]
    constructor
    · rintro ⟨hregion, -, habove, hbelow⟩
      exact ⟨hregion, habove, hbelow⟩
    · rintro ⟨hregion, habove, hbelow⟩
      exact ⟨hregion, hpos, habove, hbelow⟩
  exact ⟨hcheck.trans hvalidate.symm, hcheck, hvalidate⟩

/-- The largest region: its last byte is accepted by both checks, the one behind it by none. -/
theorem userRangeChecks_exact_lastByte :
    mcsosUserCheckRange (mcsosSyscallSetUserRegion (zeroGlobals ()) ⟨0x1000, 0xffffffffffffffff⟩)
        0xfffffffffffffffe 1 = true ∧
      m11ValidateUserRange ⟨0x1000, 0xffffffffffffffff⟩ 0xfffffffffffffffe 2 ≠ .ok := by
  have hbase : (⟨0x1000, 0xffffffffffffffff⟩ : McsosUserRegion).base ≠ 0 := by decide
  have hone := userRangeChecks_exact (zeroGlobals ()) hbase 0xfffffffffffffffe
    (show (0 : UInt64) < 1 by decide)
  have htwo := userRangeChecks_exact (zeroGlobals ()) hbase 0xfffffffffffffffe
    (show (0 : UInt64) < 2 by decide)
  refine ⟨hone.2.1.mpr (by decide), fun hok => ?_⟩
  exact absurd (htwo.2.2.mp hok) (by decide)

end Mcsos.SyscallRegion
