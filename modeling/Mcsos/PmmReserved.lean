import Mathlib.Data.List.Basic
import Mathlib.Order.Interval.Set.Disjoint
import Mcsos.PmmOwnership

/-!
Which frames `pmm_init_from_map` leaves free, and when none of them is memory that
the boot map withholds.  Entries that touch the last page of the address space are
the ones that decide: a reserved entry is passed over when its rounded end does not
fit in 64 bits, and a usable one that starts there is rounded up to address zero.
-/

namespace Mcsos.PmmReserved

open Mcsos.PmmModel
open Mcsos.PmmBitmap
open Mcsos.PmmOwnership
open Mcsos.WordArithmetic

theorem alignDown_page {value : Nat} (h : value < 2 ^ 64) :
    alignDown value pmmPageSize = value / 4096 * 4096 :=
  and_highMask 12 64 (by omega) h

theorem alignUp_page {value : Nat} (h : value ≤ 2 ^ 64 - 4096) :
    alignUp value pmmPageSize = (value + 4095) / 4096 * 4096 := by
  have hsum : (value + pmmPageSize - 1) % 2 ^ 64 = value + 4095 := by
    rw [pmmPageSize]
    omega
  rw [alignUp, hsum]
  change alignDown _ pmmPageSize = _
  exact alignDown_page (by omega)

theorem alignUp_page_wraps {value : Nat} (h : 2 ^ 64 - 4096 < value) (hlt : value < 2 ^ 64) :
    alignUp value pmmPageSize = 0 := by
  obtain ⟨rest, hrest, hsmall⟩ : ∃ rest, (value + pmmPageSize - 1) % 2 ^ 64 = rest ∧
      rest < 4096 := by
    refine ⟨_, rfl, ?_⟩
    rw [pmmPageSize]
    omega
  rw [alignUp, hrest]
  change alignDown rest pmmPageSize = 0
  rw [alignDown_page (by omega)]
  omega

theorem alignUp_page_cases {value : Nat} (hlt : value < 2 ^ 64) :
    2 ^ 64 - 4096 < value ∧ alignUp value pmmPageSize = 0 ∨
      value ≤ 2 ^ 64 - 4096 ∧ alignUp value pmmPageSize = (value + 4095) / 4096 * 4096 := by
  rcases Nat.lt_or_ge (2 ^ 64 - 4096) value with htop | htop
  · exact .inl ⟨htop, alignUp_page_wraps htop hlt⟩
  · exact .inr ⟨htop, alignUp_page htop⟩

theorem checkedAddU64_eq {a b : Nat} (ha : a < 2 ^ 64) :
    checkedAddU64 a b = if a + b < 2 ^ 64 then some (a + b) else none := by
  rw [checkedAddU64]
  split
  · rw [if_neg (by omega)]
  · rw [if_pos (by omega)]

theorem checkedAddU64_some {a b last : Nat} (ha : a < 2 ^ 64)
    (h : checkedAddU64 a b = some last) : a + b < 2 ^ 64 ∧ a + b = last := by
  rw [checkedAddU64_eq ha] at h
  split at h
  · exact ⟨‹_›, Option.some.inj h⟩
  · cases h

theorem checkedAddU64_none {a b : Nat} (ha : a < 2 ^ 64)
    (h : checkedAddU64 a b = none) : 2 ^ 64 ≤ a + b := by
  rw [checkedAddU64_eq ha] at h
  split at h
  · cases h
  · omega

theorem forPages_markFrameFree_clear (pmm : PmmState) (addr pages g : Nat) :
    bitmapTest (forPages markFrameFree pmm addr pages).bitmap g = false ↔
      bitmapTest pmm.bitmap g = false ∨
        addr / 4096 ≤ g ∧ g < addr / 4096 + pages ∧ g < pmm.frameCount := by
  induction pages generalizing pmm addr with
  | zero =>
      rw [forPages]
      constructor
      · exact .inl
      · rintro (h | ⟨_, _, _⟩)
        · exact h
        · omega
  | succ pages ih =>
      have hnext : (addr + 4096) / 4096 = addr / 4096 + 1 := by omega
      rw [forPages, ih, pmmPageSize, hnext, markFrameFree_test,
        (markFrameFree_shape pmm _).frameCount, Bool.and_eq_false_iff]
      simp only [Bool.not_eq_false', Bool.and_eq_true, decide_eq_true_eq, or_assoc]
      apply or_congr_right
      omega

/-- The frames that `mark_range_free` frees. -/
def RangeFrees (base length g : Nat) : Prop :=
  0 < length ∧ base + length < 2 ^ 64 ∧
    (2 ^ 64 - 4096 < base ∨ base ≤ 4096 * g ∧ 4096 * g + 4096 ≤ base + length)

/-- The frames that `mark_range_used` takes. -/
def RangeReserves (base length g : Nat) : Prop :=
  0 < length ∧ base + length ≤ 2 ^ 64 - 4096 ∧
    base < 4096 * g + 4096 ∧ 4096 * g < base + length

section Range

variable {pmm : PmmState} {base length g : Nat}

theorem markRangeFree_clear (hmax : pmm.maxPhys = 4096 * pmm.frameCount)
    (hfit : pmm.maxPhys < 2 ^ 64) (hbase : base < 2 ^ 64) (hg : g < pmm.frameCount) :
    bitmapTest (markRangeFree pmm base length).bitmap g = false ↔
      bitmapTest pmm.bitmap g = false ∨ RangeFrees base length g := by
  have hskip : ¬RangeFrees base length g →
      (bitmapTest pmm.bitmap g = false ↔
        bitmapTest pmm.bitmap g = false ∨ RangeFrees base length g) :=
    fun h => (or_iff_left h).symm
  unfold markRangeFree
  split
  case isTrue hempty => exact hskip fun h => by have := h.1; omega
  case isFalse hlength =>
    split
    case h_1 hover =>
      have hwraps := checkedAddU64_none hbase hover
      apply hskip
      rintro ⟨-, hlast, -⟩
      omega
    case h_2 last hsum =>
      obtain ⟨hlast, rfl⟩ := checkedAddU64_some hbase hsum
      have hstart := alignUp_page_cases hbase
      dsimp only
      rw [alignDown_page hlast]
      generalize alignUp base pmmPageSize = start at hstart ⊢
      split
      case isTrue hnone =>
        apply hskip
        rintro ⟨-, -, hrange⟩
        omega
      case isFalse hsome =>
        rw [forPages_markFrameFree_clear]
        apply or_congr_right
        unfold RangeFrees pagesBetween pmmPageSize
        split <;> omega

theorem markRangeUsed_clear (hmax : pmm.maxPhys = 4096 * pmm.frameCount)
    (hbase : base < 2 ^ 64) (hg : g < pmm.frameCount) :
    bitmapTest (markRangeUsed pmm base length).bitmap g = false ↔
      bitmapTest pmm.bitmap g = false ∧ ¬RangeReserves base length g := by
  have hskip : ¬RangeReserves base length g →
      (bitmapTest pmm.bitmap g = false ↔
        bitmapTest pmm.bitmap g = false ∧ ¬RangeReserves base length g) :=
    fun h => (and_iff_left h).symm
  unfold markRangeUsed
  split
  case isTrue hempty => exact hskip fun h => by have := h.1; omega
  case isFalse hlength =>
    split
    case h_1 hover =>
      have hwraps := checkedAddU64_none hbase hover
      apply hskip
      rintro ⟨-, hlast, -⟩
      omega
    case h_2 last hsum =>
      obtain ⟨hlast, rfl⟩ := checkedAddU64_some hbase hsum
      have hstop := alignUp_page_cases hlast
      dsimp only
      rw [alignDown_page hbase]
      generalize alignUp (base + length) pmmPageSize = stop at hstop ⊢
      split
      case isTrue hnone =>
        apply hskip
        rintro ⟨-, hfits, hrange⟩
        omega
      case isFalse hsome =>
        rw [forPages_reserveFrame_test, Bool.or_eq_false_iff]
        apply and_congr_right'
        rw [← Bool.not_eq_true]
        apply not_congr
        simp only [Bool.and_eq_true, decide_eq_true_eq]
        unfold RangeReserves pagesBetween pmmPageSize
        split <;> omega

end Range

theorem freeUsableRegions_clear {pmm : PmmState} {g : Nat} (regions : List BootMemRegion)
    (hmax : pmm.maxPhys = 4096 * pmm.frameCount) (hfit : pmm.maxPhys < 2 ^ 64)
    (hg : g < pmm.frameCount) :
    bitmapTest (freeUsableRegions pmm regions).bitmap g = false ↔
      bitmapTest pmm.bitmap g = false ∨
        ∃ region ∈ regions, region.type = bootMemUsable ∧
          RangeFrees region.base.toNat region.length.toNat g := by
  induction regions generalizing pmm with
  | nil => simp [freeUsableRegions]
  | cons region regions ih =>
      change bitmapTest (freeUsableRegions (if region.type = bootMemUsable then
        markRangeFree pmm region.base.toNat region.length.toNat else pmm) regions).bitmap g =
          false ↔ _
      simp only [List.exists_mem_cons_iff]
      split
      case isTrue husable =>
        obtain ⟨hshape, -⟩ := frees_markRangeFree pmm region.base.toNat region.length.toNat
        rw [ih (by rw [hshape.maxPhys, hshape.frameCount, hmax]) (hshape.maxPhys.trans_lt hfit)
          (hshape.frameCount ▸ hg),
          markRangeFree_clear hmax hfit region.base.toNat_lt hg, or_assoc]
        simp only [husable, true_and]
      case isFalse hreserved =>
        rw [ih hmax hfit hg]
        simp only [hreserved, false_and, false_or]

theorem reserveOtherRegions_clear {pmm : PmmState} {g : Nat} (regions : List BootMemRegion)
    (hmax : pmm.maxPhys = 4096 * pmm.frameCount) (hg : g < pmm.frameCount) :
    bitmapTest (reserveOtherRegions pmm regions).bitmap g = false ↔
      bitmapTest pmm.bitmap g = false ∧
        ∀ region ∈ regions, region.type ≠ bootMemUsable →
          ¬RangeReserves region.base.toNat region.length.toNat g := by
  induction regions generalizing pmm with
  | nil => simp [reserveOtherRegions]
  | cons region regions ih =>
      change bitmapTest (reserveOtherRegions (if region.type ≠ bootMemUsable then
        markRangeUsed pmm region.base.toNat region.length.toNat else pmm) regions).bitmap g =
          false ↔ _
      simp only [List.forall_mem_cons]
      split
      case isTrue hreserved =>
        obtain ⟨hshape, -, -⟩ :=
          reserves_markRangeUsed pmm region.base.toNat region.length.toNat
        rw [ih (by rw [hshape.maxPhys, hshape.frameCount, hmax]) (hshape.frameCount ▸ hg),
          markRangeUsed_clear hmax region.base.toNat_lt hg, and_assoc]
        simp only [hreserved, true_imp_iff, ne_eq, not_false_eq_true]
      case isFalse husable =>
        rw [ih hmax hg]
        simp only [husable, false_imp_iff, true_and]

theorem bitmapTest_fillBitmap (bitmap : Bitmap) {count g : Nat} (h : g / 8 < count) :
    bitmapTest (fillBitmap bitmap count) g = true := by
  have hbyte : fillBitmap bitmap count (g / 8) = 0xff := by
    induction count with
    | zero => omega
    | succ count ih =>
        rw [fillBitmap]
        rcases Nat.lt_succ_iff_lt_or_eq.mp h with hlt | heq
        · rw [Function.update_of_ne (by omega), ih hlt]
        · rw [heq, Function.update_self]
  have hbit : g % 8 < 8 := Nat.mod_lt _ (by omega)
  rw [bitmapTest_eq_testBit, Nat.shiftRight_eq_div_pow, hbyte]
  change Nat.testBit (2 ^ 8 - 1) (g % 8) = true
  rw [Nat.testBit_two_pow_sub_one]
  exact decide_eq_true hbit

/-- The bytes of a frame. -/
def frameBytes (g : Nat) : Set Nat := Set.Ico (4096 * g) (4096 * g + 4096)

/-- The end of a region, in exact integers. -/
def regionEnd (region : BootMemRegion) : Nat := region.base.toNat + region.length.toNat

/-- The bytes of a region, in exact integers. -/
def regionBytes (region : BootMemRegion) : Set Nat :=
  Set.Ico region.base.toNat (regionEnd region)

theorem frameBytes_subset_iff {g : Nat} {region : BootMemRegion} :
    frameBytes g ⊆ regionBytes region ↔
      region.base.toNat ≤ 4096 * g ∧ 4096 * g + 4096 ≤ regionEnd region :=
  Set.Ico_subset_Ico_iff (by omega)

theorem frameBytes_disjoint_iff {g : Nat} {region : BootMemRegion} :
    Disjoint (frameBytes g) (regionBytes region) ↔
      ¬(0 < region.length.toNat ∧ region.base.toNat < 4096 * g + 4096 ∧
        4096 * g < regionEnd region) := by
  unfold frameBytes regionBytes regionEnd
  rw [Set.Ico_disjoint_Ico]
  omega

/-- A usable entry that starts in the last page of the address space and ends in it:
its start is rounded up to zero. -/
def WrapsToZero (region : BootMemRegion) : Prop :=
  region.type = bootMemUsable ∧ 0 < region.length.toNat ∧
    2 ^ 64 - 4096 < region.base.toNat ∧ regionEnd region < 2 ^ 64

/-- A usable entry whose end fits in 64 bits. -/
def Offered (region : BootMemRegion) : Prop :=
  region.type = bootMemUsable ∧ regionEnd region < 2 ^ 64

/-- A reserved entry that ends before the last page of the address space. -/
def Withheld (region : BootMemRegion) : Prop :=
  region.type ≠ bootMemUsable ∧ regionEnd region ≤ 2 ^ 64 - 4096

/-- A reserved entry whose end does not fit in 64 bits when it is rounded up. -/
def PassedOver (region : BootMemRegion) : Prop :=
  region.type ≠ bootMemUsable ∧ 2 ^ 64 - 4096 < regionEnd region

theorem rangeFrees_iff {region : BootMemRegion} {g : Nat} :
    region.type = bootMemUsable ∧ RangeFrees region.base.toNat region.length.toNat g ↔
      WrapsToZero region ∨ Offered region ∧ frameBytes g ⊆ regionBytes region := by
  rw [frameBytes_subset_iff]
  unfold WrapsToZero Offered RangeFrees regionEnd
  constructor
  · rintro ⟨husable, hlength, hlast, htop | hinside⟩
    · exact .inl ⟨husable, hlength, htop, hlast⟩
    · exact .inr ⟨⟨husable, hlast⟩, hinside⟩
  · rintro (⟨husable, hlength, htop, hlast⟩ | ⟨⟨husable, hlast⟩, hinside⟩)
    · exact ⟨husable, hlength, hlast, .inl htop⟩
    · exact ⟨husable, by omega, hlast, .inr hinside⟩

theorem rangeReserves_iff {region : BootMemRegion} {g : Nat} :
    (region.type ≠ bootMemUsable → ¬RangeReserves region.base.toNat region.length.toNat g) ↔
      (Withheld region → Disjoint (frameBytes g) (regionBytes region)) := by
  rw [frameBytes_disjoint_iff]
  unfold Withheld RangeReserves regionEnd
  constructor
  · rintro h ⟨hreserved, hlast⟩ ⟨hlength, hoverlap⟩
    exact h hreserved ⟨hlength, hlast, hoverlap⟩
  · rintro h hreserved ⟨hlength, hlast, hoverlap⟩
    exact h ⟨hreserved, hlast⟩ ⟨hlength, hoverlap⟩

theorem pmmIsFrameFree_iff {pmm : PmmState} {g : Nat} (hready : pmm.initialized = true)
    (hmax : pmm.maxPhys = 4096 * pmm.frameCount) (hg : g < pmm.frameCount) :
    pmmIsFrameFree pmm (g * pmmPageSize) = true ↔ bitmapTest pmm.bitmap g = false := by
  have hframe : g * pmmPageSize / pmmPageSize = g := Nat.mul_div_cancel g (by decide)
  have hinside : ¬(g * pmmPageSize % 4096 ≠ 0 ∨ pmm.maxPhys ≤ g * pmmPageSize) := by
    rw [pmmPageSize]
    omega
  rw [pmmIsFrameFree, hready, and_pageMask, if_neg (by decide), if_neg hinside, hframe,
    Bool.not_eq_true']

section Init

variable {pmm : PmmState} {regions : List BootMemRegion} {storage : Bitmap}
  {storageBytes maxPhysBytes : Nat}

theorem markedRegions_clear {g : Nat} (hpages : maxPhysBytes % 4096 = 0)
    (hmax : maxPhysBytes < 2 ^ 64) (hg : g < maxPhysBytes / 4096) :
    bitmapTest (reserveOtherRegions (markRangeUsed
        (freeUsableRegions (unmarkedState storage maxPhysBytes) regions) 0 pmmPageSize)
          regions).bitmap g = false ↔
      0 < g ∧
        (∃ region ∈ regions, WrapsToZero region ∨
          Offered region ∧ frameBytes g ⊆ regionBytes region) ∧
        ∀ region ∈ regions, Withheld region →
          Disjoint (frameBytes g) (regionBytes region) := by
  have hlimit : (unmarkedState storage maxPhysBytes).maxPhys =
      4096 * (unmarkedState storage maxPhysBytes).frameCount := by
    change maxPhysBytes = 4096 * (maxPhysBytes / 4096)
    omega
  have hset : bitmapTest (unmarkedState storage maxPhysBytes).bitmap g = true := by
    apply bitmapTest_fillBitmap
    rw [pmmPageSize]
    omega
  obtain ⟨hfreed, -⟩ := frees_freeUsableRegions (unmarkedState storage maxPhysBytes) regions
  have hfirst := reserves_markRangeUsed
    (freeUsableRegions (unmarkedState storage maxPhysBytes) regions) 0 pmmPageSize
  have hshape := hfreed.trans hfirst.shape
  have hpage : ¬RangeReserves 0 pmmPageSize g ↔ 0 < g := by
    unfold RangeReserves pmmPageSize
    omega
  rw [reserveOtherRegions_clear regions (by rw [hshape.maxPhys, hshape.frameCount, hlimit])
      (hshape.frameCount ▸ hg),
    markRangeUsed_clear (by rw [hfreed.maxPhys, hfreed.frameCount, hlimit]) (by omega)
      (hfreed.frameCount ▸ hg),
    freeUsableRegions_clear regions hlimit hmax hg, hset, hpage]
  simp only [rangeFrees_iff, rangeReserves_iff, Bool.true_eq_false, false_or]
  rw [and_comm (b := 0 < g), and_assoc]

theorem pmmInitFromMap_free_iff {g : Nat}
    (hinit : (pmmInitFromMap pmm (some regions) (some storage) storageBytes maxPhysBytes).2 = true)
    (hmax : maxPhysBytes < 2 ^ 64) (hg : g < maxPhysBytes / 4096) :
    pmmIsFrameFree (pmmInitFromMap pmm (some regions) (some storage) storageBytes maxPhysBytes).1
        (g * pmmPageSize) = true ↔
      0 < g ∧
        (∃ region ∈ regions, WrapsToZero region ∨
          Offered region ∧ frameBytes g ⊆ regionBytes region) ∧
        ∀ region ∈ regions, Withheld region →
          Disjoint (frameBytes g) (regionBytes region) := by
  have hinv := pmmInv_startRun hinit hmax
  obtain ⟨map, bitmapStorage, hmap, hstorage, -, hpages, hstate⟩ := pmmInitFromMap_true hinit
  obtain rfl : regions = map := Option.some.inj hmap
  obtain rfl : storage = bitmapStorage := Option.some.inj hstorage
  refine (pmmIsFrameFree_iff hinv.initialized (by rw [hinv.maxPhys_eq, hinv.frameCount_eq])
    (hinv.frameCount_eq ▸ hg)).trans ?_
  unfold startRun
  rw [hstate]
  exact markedRegions_clear hpages hmax hg

/-- No free frame overlaps a reserved entry, and every free frame lies in a usable one. -/
def NeverOffersReserved (regions : List BootMemRegion) (pmm : PmmState) : Prop :=
  ∀ g < pmm.frameCount, pmmIsFrameFree pmm (g * pmmPageSize) = true →
    (∀ region ∈ regions, region.type ≠ bootMemUsable →
      Disjoint (frameBytes g) (regionBytes region)) ∧
    ∃ region ∈ regions, region.type = bootMemUsable ∧ frameBytes g ⊆ regionBytes region

/-- A frame that the entries at the top of the address space give away: no reserved
entry below them covers it, and it is offered although a passed over entry reserves it,
or offered by a wrapping entry although no usable entry contains it. -/
def Exposed (regions : List BootMemRegion) (g : Nat) : Prop :=
  (∀ region ∈ regions, Withheld region → Disjoint (frameBytes g) (regionBytes region)) ∧
    ((∃ region ∈ regions, WrapsToZero region ∨
          Offered region ∧ frameBytes g ⊆ regionBytes region) ∧
        (∃ region ∈ regions, PassedOver region ∧
          ¬Disjoint (frameBytes g) (regionBytes region)) ∨
      (∃ region ∈ regions, WrapsToZero region) ∧
        ∀ region ∈ regions, region.type = bootMemUsable →
          ¬frameBytes g ⊆ regionBytes region)

theorem not_exposed_of_below_top {g : Nat}
    (h : ∀ region ∈ regions, regionEnd region ≤ 2 ^ 64 - 4096) : ¬Exposed regions g := by
  rintro ⟨-, ⟨-, region, hmem, ⟨-, htop⟩, -⟩ | ⟨⟨region, hmem, -, hlength, hbase, -⟩, -⟩⟩
  · exact absurd (h region hmem) (by omega)
  · have hlow := h region hmem
    unfold regionEnd at hlow
    omega

theorem neverOffersReserved_iff
    (hinit : (pmmInitFromMap pmm (some regions) (some storage) storageBytes maxPhysBytes).2 = true)
    (hmax : maxPhysBytes < 2 ^ 64) :
    NeverOffersReserved regions
        (pmmInitFromMap pmm (some regions) (some storage) storageBytes maxPhysBytes).1 ↔
      ∀ g, 0 < g → g < maxPhysBytes / pmmPageSize → ¬Exposed regions g := by
  have hcount : (pmmInitFromMap pmm (some regions) (some storage) storageBytes
      maxPhysBytes).1.frameCount = maxPhysBytes / 4096 := (pmmInv_startRun hinit hmax).frameCount_eq
  unfold NeverOffersReserved
  rw [hcount]
  constructor
  · rintro h g hpos hg ⟨hclear, ⟨hoffered, region, hmem, hpassed, hoverlap⟩ |
      ⟨⟨region, hmem, hwraps⟩, houtside⟩⟩
    · have hfree := (pmmInitFromMap_free_iff hinit hmax hg).mpr ⟨hpos, hoffered, hclear⟩
      exact hoverlap ((h g hg hfree).1 region hmem hpassed.1)
    · have hfree := (pmmInitFromMap_free_iff hinit hmax hg).mpr
        ⟨hpos, ⟨region, hmem, .inl hwraps⟩, hclear⟩
      obtain ⟨-, inside, hinside, husable, hsubset⟩ := h g hg hfree
      exact houtside inside hinside husable hsubset
  · intro h g hg hfree
    obtain ⟨hpos, hoffered, hclear⟩ := (pmmInitFromMap_free_iff hinit hmax hg).mp hfree
    have hexposed := h g hpos hg
    constructor
    · intro region hmem hreserved
      by_contra hoverlap
      rcases Nat.lt_or_ge (2 ^ 64 - 4096) (regionEnd region) with htop | hlow
      · exact hexposed ⟨hclear, .inl ⟨hoffered, region, hmem, ⟨hreserved, htop⟩, hoverlap⟩⟩
      · exact hoverlap (hclear region hmem ⟨hreserved, hlow⟩)
    · obtain ⟨region, hmem, hwraps | ⟨⟨husable, -⟩, hsubset⟩⟩ := hoffered
      · by_contra hnone
        refine hexposed ⟨hclear, .inr ⟨⟨region, hmem, hwraps⟩, ?_⟩⟩
        exact fun inside hinside husable hsubset => hnone ⟨inside, hinside, husable, hsubset⟩
      · exact ⟨region, hmem, husable, hsubset⟩

/-- A map with a reserved page between usable ones. -/
def reservedInside : List BootMemRegion :=
  [⟨0, 16384, bootMemUsable⟩, ⟨8192, 4096, 2⟩]

theorem neverOffersReserved_iff_reservedInside :
    NeverOffersReserved reservedInside
      (pmmInitFromMap pmmZeroState (some reservedInside) (some fun _ => 0) 1 16384).1 := by
  refine (neverOffersReserved_iff (by decide) (by decide)).mpr fun g _ _ => ?_
  apply not_exposed_of_below_top
  decide

/-- The second page of two, once usable and once reserved up to the end of memory. -/
def reservedToTheTop : List BootMemRegion :=
  [⟨0, 8192, bootMemUsable⟩, ⟨4096, 0xfffffffffffff000, 2⟩]

theorem not_neverOffersReserved_reservedToTheTop :
    (pmmInitFromMap pmmZeroState (some reservedToTheTop) (some fun _ => 0) 1 8192).2 = true ∧
      ¬NeverOffersReserved reservedToTheTop
        (pmmInitFromMap pmmZeroState (some reservedToTheTop) (some fun _ => 0) 1 8192).1 := by
  refine ⟨by decide, fun h => ?_⟩
  have hfree : pmmIsFrameFree (pmmInitFromMap pmmZeroState (some reservedToTheTop)
      (some fun _ => 0) 1 8192).1 (1 * pmmPageSize) = true := by
    decide
  have hdisjoint := (h 1 (by decide) hfree).1 ⟨4096, 0xfffffffffffff000, 2⟩
    (List.mem_cons_of_mem _ List.mem_cons_self) (by decide)
  rw [frameBytes_disjoint_iff] at hdisjoint
  exact hdisjoint (by decide)

theorem pmmInitFromMap_succeeds (pmm : PmmState) (storage : Bitmap) (hregions : regions ≠ [])
    (hzero : maxPhysBytes ≠ 0) (hpages : maxPhysBytes % 4096 = 0) (hmax : maxPhysBytes < 2 ^ 64)
    (hroom : (maxPhysBytes / 4096 + 7) / 8 ≤ storageBytes) :
    (pmmInitFromMap pmm (some regions) (some storage) storageBytes maxPhysBytes).2 = true := by
  have hsize : ¬(maxPhysBytes = 0 ∨ maxPhysBytes % 4096 ≠ 0) := by omega
  have hbytes : ¬storageBytes < (maxPhysBytes / pmmPageSize + 7) % 2 ^ 64 / 8 := by
    rw [pmmPageSize]
    omega
  simp only [pmmInitFromMap, and_pageMask, if_neg hregions, if_neg hsize, if_neg hbytes]

/-- A frame lies in a usable region and clear of all other regions. -/
def InUsableRegion (regions : List BootMemRegion) (g : Nat) : Prop :=
  (∃ region ∈ regions, region.type = bootMemUsable ∧ frameBytes g ⊆ regionBytes region) ∧
    ∀ region ∈ regions, region.type ≠ bootMemUsable →
      Disjoint (frameBytes g) (regionBytes region)

theorem released_iff {g : Nat} (hends : ∀ region ∈ regions, regionEnd region ≤ 2 ^ 64 - 4096) :
    ((∃ region ∈ regions, WrapsToZero region ∨
        Offered region ∧ frameBytes g ⊆ regionBytes region) ∧
      ∀ region ∈ regions, Withheld region → Disjoint (frameBytes g) (regionBytes region)) ↔
      InUsableRegion regions g := by
  apply and_congr
  · constructor
    · rintro ⟨region, hmem, ⟨-, hlength, htop, -⟩ | ⟨hoffered, hinside⟩⟩
      · have hlow := hends region hmem
        unfold regionEnd at hlow
        omega
      · exact ⟨region, hmem, hoffered.1, hinside⟩
    · rintro ⟨region, hmem, husable, hinside⟩
      have hlow := hends region hmem
      exact ⟨region, hmem, .inr ⟨⟨husable, by omega⟩, hinside⟩⟩
  · constructor
    · intro hclear region hmem hreserved
      exact hclear region hmem ⟨hreserved, hends region hmem⟩
    · intro hclear region hmem hwithheld
      exact hclear region hmem hwithheld.1

/-- From a map that ends below the last page of the address space, the initialisation
makes free exactly the frames, but the first, that lie in one usable region and clear of
all other regions. -/
theorem pmmInitFromMap_exact (pmm : PmmState) (storage : Bitmap) (hregions : regions ≠ [])
    (hends : ∀ region ∈ regions, regionEnd region ≤ 2 ^ 64 - 4096)
    (hpages : maxPhysBytes % 4096 = 0) (hmax : maxPhysBytes < 2 ^ 64)
    (hroom : (maxPhysBytes / 4096 + 7) / 8 ≤ storageBytes) :
    (maxPhysBytes ≠ 0 →
        (pmmInitFromMap pmm (some regions) (some storage) storageBytes maxPhysBytes).2 = true ∧
          (pmmInitFromMap pmm (some regions) (some storage) storageBytes
            maxPhysBytes).1.frameCount = maxPhysBytes / 4096) ∧
      ∀ f < maxPhysBytes / 4096,
        pmmIsFrameFree (pmmInitFromMap pmm (some regions) (some storage) storageBytes
            maxPhysBytes).1 (f * pmmPageSize) = true ↔
          f ≠ 0 ∧ InUsableRegion regions f := by
  constructor
  · intro hzero
    have hinit := pmmInitFromMap_succeeds pmm storage hregions hzero hpages hmax hroom
    exact ⟨hinit, (pmmInv_startRun hinit hmax).frameCount_eq⟩
  · intro f hf
    have hinit := pmmInitFromMap_succeeds pmm storage hregions (by omega) hpages hmax hroom
    rw [pmmInitFromMap_free_iff hinit hmax hf, released_iff hends, Nat.pos_iff_ne_zero]

theorem pmmInitFromMap_exact_reservedInside :
    pmmIsFrameFree (pmmInitFromMap pmmZeroState (some reservedInside) (some fun _ => 0) 1 16384).1
        (3 * pmmPageSize) = true ∧
      InUsableRegion reservedInside 3 := by
  have hfree : pmmIsFrameFree (pmmInitFromMap pmmZeroState (some reservedInside)
      (some fun _ => 0) 1 16384).1 (3 * pmmPageSize) = true := by
    decide
  have hexact := pmmInitFromMap_exact pmmZeroState (fun _ => 0)
    (show reservedInside ≠ [] by decide) (by decide) (show 16384 % 4096 = 0 by decide) (by decide)
    (show (16384 / 4096 + 7) / 8 ≤ 1 by decide)
  exact ⟨hfree, ((hexact.2 3 (by decide)).mp hfree).2⟩

end Init

end Mcsos.PmmReserved
