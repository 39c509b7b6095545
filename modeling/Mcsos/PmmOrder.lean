import Mathlib.Data.List.Perm.Basic
import Mcsos.PmmStrict

/-!
The order of the boot map.  The loops of `pmm_init_from_map` count only the bits that they
change themselves, so what a region adds to a counter depends on the regions before it; the
state that they end in does not.
-/

namespace Mcsos.PmmOrder

open Mcsos.PmmModel
open Mcsos.PmmBitmap
open Mcsos.PmmOwnership
open Mcsos.PmmReserved
open Mcsos.PmmCounters
open Mcsos.PmmStrict

/-- What holds while the boot map is marked: the counters are right, the hint is where it
started, and the bytes behind the bitmap are those of the storage. -/
structure Marked (storage : Bitmap) (pmm : PmmState) : Prop where
  counted : Counted pmm
  outside : ∀ k, pmm.bitmapBytes ≤ k → pmm.bitmap k = storage k
  hint : pmm.nextHint = 0
  ignored : pmm.ignoredFrames = 0

theorem byte_eq_of_bits {bitmap bitmap' : Bitmap} {k : Nat}
    (h : ∀ f, f / 8 = k → bitmapTest bitmap' f = bitmapTest bitmap f) : bitmap' k = bitmap k := by
  apply UInt8.toNat_inj.mp
  apply Nat.eq_of_testBit_eq
  intro i
  rcases Nat.lt_or_ge i 8 with hlt | hge
  · have hbit := h (8 * k + i) (by omega)
    have hbyte : (8 * k + i) >>> 3 = k := by
      rw [Nat.shiftRight_eq_div_pow]
      omega
    have hindex : (8 * k + i) % 8 = i := by omega
    rwa [bitmapTest_eq_testBit, bitmapTest_eq_testBit, hbyte, hindex] at hbit
  · have hsmall : ∀ byte : UInt8, byte.toNat.testBit i = false := fun byte =>
      Nat.testBit_lt_two_pow
        (byte.toNat_lt.trans_le (Nat.pow_le_pow_right (by omega) hge))
    rw [hsmall, hsmall]

theorem bitmapTest_eq_of_clear_iff {bitmap bitmap' : Bitmap} {f : Nat} {P : Prop}
    (h : bitmapTest bitmap f = false ↔ P) (h' : bitmapTest bitmap' f = false ↔ P) :
    bitmapTest bitmap' f = bitmapTest bitmap f := by
  rwa [← h, ← Bool.not_eq_true, ← Bool.not_eq_true, not_iff_not, ← Bool.eq_iff_iff] at h'

theorem SameShape.between {pmm pmm₁ pmm₂ : PmmState} (h₁ : SameShape pmm pmm₁)
    (h₂ : SameShape pmm pmm₂) : SameShape pmm₁ pmm₂ :=
  ⟨h₂.bitmapBytes.trans h₁.bitmapBytes.symm, h₂.maxPhys.trans h₁.maxPhys.symm,
    h₂.frameCount.trans h₁.frameCount.symm, h₂.initialized.trans h₁.initialized.symm⟩

theorem SameShape.clearFrames_eq {pmm pmm' : PmmState} (hshape : SameShape pmm pmm')
    (hbits : ∀ f < pmm.frameCount, bitmapTest pmm'.bitmap f = bitmapTest pmm.bitmap f) :
    clearFrames pmm' = clearFrames pmm := by
  ext f
  rw [mem_clearFrames, mem_clearFrames, hshape.frameCount]
  apply and_congr_right
  intro hlt
  rw [hbits f hlt]

theorem Marked.ext {storage : Bitmap} {pmm pmm' : PmmState} (h : Marked storage pmm)
    (h' : Marked storage pmm') (hshape : SameShape pmm pmm')
    (hbits : ∀ f < pmm.frameCount, bitmapTest pmm'.bitmap f = bitmapTest pmm.bitmap f)
    (hreserved : pmm'.reservedFrames = pmm.reservedFrames) : pmm' = pmm := by
  have hbitmap : pmm'.bitmap = pmm.bitmap := by
    funext k
    rcases Nat.lt_or_ge k pmm.bitmapBytes with hinside | hbehind
    · apply byte_eq_of_bits
      intro f hf
      rcases Nat.lt_or_ge f pmm.frameCount with hlt | hpadding
      · exact hbits f hlt
      · rw [h.counted.padding f hpadding (by omega),
          h'.counted.padding f (hshape.frameCount ▸ hpadding)
            (by rw [hshape.bitmapBytes]; omega)]
    · rw [h.outside k hbehind, h'.outside k (hshape.bitmapBytes ▸ hbehind)]
  have hfree : pmm'.freeFrames = pmm.freeFrames := by
    rw [h'.counted.free_eq, h.counted.free_eq, SameShape.clearFrames_eq hshape hbits]
  have hused : pmm'.usedFrames = pmm.usedFrames := by
    have hsum := h.counted.sum
    have hsum' := h'.counted.sum
    rw [hshape.frameCount] at hsum'
    omega
  obtain ⟨hbytes, hmax, hcount, hready⟩ := hshape
  have hhint := h'.hint.trans h.hint.symm
  have hignored := h'.ignored.trans h.ignored.symm
  cases pmm
  cases pmm'
  simp_all only

section Frame

variable {storage : Bitmap} {pmm : PmmState}

theorem Marked.outside_update (h : Marked storage pmm) {f : Nat} (hlt : f < pmm.frameCount)
    (byte : UInt8) {k : Nat} (hk : pmm.bitmapBytes ≤ k) :
    Function.update pmm.bitmap (f >>> 3) byte k = storage k := by
  have hinside := byte_lt h.counted hlt
  rw [Function.update_of_ne (by omega), h.outside k hk]

theorem Marked.markFrameFree (h : Marked storage pmm) (f : Nat) :
    Marked storage (markFrameFree pmm f) ∧
      (markFrameFree pmm f).reservedFrames = pmm.reservedFrames := by
  have hcounted := h.counted.markFrameFree f
  have hhint := markFrameFree_nextHint pmm f
  have hzero : (PmmModel.markFrameFree pmm f).nextHint = 0 := by
    rw [h.hint] at hhint
    omega
  unfold PmmModel.markFrameFree at hcounted hzero ⊢
  split
  · exact ⟨h, rfl⟩
  case isFalse hout =>
    rw [if_neg hout] at hcounted hzero
    split
    case isTrue hset =>
      rw [if_pos hset] at hcounted hzero
      exact ⟨⟨hcounted, fun k hk => h.outside_update (by omega) _ hk, hzero, h.ignored⟩, rfl⟩
    case isFalse => exact ⟨h, rfl⟩

theorem Marked.markFrameUsed (h : Marked storage pmm) (f : Nat) :
    Marked storage (markFrameUsed pmm f) := by
  have hcounted := h.counted.markFrameUsed f
  unfold PmmModel.markFrameUsed at hcounted ⊢
  split
  · exact h
  case isFalse hout =>
    rw [if_neg hout] at hcounted
    split
    · exact h
    case isFalse hset =>
      rw [if_neg hset] at hcounted
      exact ⟨hcounted, fun k hk => h.outside_update (by omega) _ hk, h.hint, h.ignored⟩

/-- What is taken from the free frames is added to the reserved ones. -/
def Balanced (storage : Bitmap) (total : Nat) (pmm : PmmState) : Prop :=
  Marked storage pmm ∧ pmm.freeFrames + pmm.reservedFrames = total

theorem markFrameUsed_reserved (pmm : PmmState) (f : Nat) :
    (markFrameUsed pmm f).reservedFrames = pmm.reservedFrames := by
  unfold markFrameUsed
  split
  · rfl
  · split <;> rfl

theorem Balanced.reserveFrame {total : Nat} (htotal : total < 2 ^ 64)
    (h : Balanced storage total pmm) {f : Nat} (hlt : f < pmm.frameCount) :
    Balanced storage total (reserveFrame pmm f) := by
  obtain ⟨hmarked, hsum⟩ := h
  have hmarked' := hmarked.markFrameUsed f
  have hreserved := markFrameUsed_reserved pmm f
  unfold PmmModel.reserveFrame
  cases hbit : bitmapTest pmm.bitmap f with
  | true =>
      rw [markFrameUsed_of_set hbit]
      exact ⟨hmarked, hsum⟩
  | false =>
      have hfree := (markFrameUsed_of_clear hlt hbit).1
      have hpos : 0 < pmm.freeFrames := by
        rw [hmarked.counted.free_eq, Finset.card_pos]
        exact ⟨f, mem_clearFrames.mpr ⟨hlt, hbit⟩⟩
      constructor
      · obtain ⟨hcounted, houtside, hhint, hignored⟩ := hmarked'
        exact ⟨hcounted.update hcounted.hint_le _ _, houtside, hhint, hignored⟩
      · show (PmmModel.markFrameUsed pmm f).freeFrames +
          ((PmmModel.markFrameUsed pmm f).reservedFrames + 1) % 2 ^ 64 = total
        rw [hfree, hreserved]
        omega

end Frame

section Loops

variable {pmm : PmmState}

theorem forPages_reserveFrame_invariant (I : PmmState → Prop)
    (hvisit : ∀ pmm f, I pmm → f < pmm.frameCount → I (reserveFrame pmm f)) {addr pages : Nat}
    (hpages : addr / 4096 + pages ≤ pmm.frameCount) (h : I pmm) :
    I (forPages reserveFrame pmm addr pages) := by
  induction pages generalizing pmm addr with
  | zero => exact h
  | succ pages ih =>
      have hnext : (addr + 4096) / 4096 = addr / 4096 + 1 := by omega
      have hfirst : addr / 4096 < pmm.frameCount := by omega
      rw [forPages, pmmPageSize]
      apply ih
      · rw [hnext, (reserveFrame_shape pmm _).frameCount]
        omega
      · exact hvisit pmm _ h hfirst

theorem markRangeUsed_frames (I : PmmState → Prop) (hcounted : ∀ pmm, I pmm → Counted pmm)
    (hvisit : ∀ pmm f, I pmm → f < pmm.frameCount → I (reserveFrame pmm f)) (base length : Nat)
    (h : I pmm) : I (markRangeUsed pmm base length) := by
  unfold markRangeUsed
  split
  · exact h
  · split
    · exact h
    · dsimp only
      split
      · exact h
      case isFalse hinside =>
        have hmax := (hcounted pmm h).maxPhys_eq
        refine forPages_reserveFrame_invariant I hvisit ?_ h
        apply pagesBetween_le
        · omega
        · split <;> omega

theorem reserveOtherRegions_frames (I : PmmState → Prop) (hcounted : ∀ pmm, I pmm → Counted pmm)
    (hvisit : ∀ pmm f, I pmm → f < pmm.frameCount → I (reserveFrame pmm f))
    (regions : List BootMemRegion) (h : I pmm) : I (reserveOtherRegions pmm regions) := by
  refine List.foldlRecOn regions _ h ?_
  intro pmm' hI region _
  split
  · exact markRangeUsed_frames I hcounted hvisit _ _ hI
  · exact hI

variable {storage : Bitmap} {regions regions' : List BootMemRegion}

theorem Marked.freeUsableRegions (h : Marked storage pmm) (regions : List BootMemRegion) :
    Marked storage (freeUsableRegions pmm regions) ∧
      (freeUsableRegions pmm regions).reservedFrames = pmm.reservedFrames := by
  refine freeUsableRegions_invariant
    (fun pmm' => Marked storage pmm' ∧ pmm'.reservedFrames = pmm.reservedFrames) ?_ regions
    ⟨h, rfl⟩
  rintro pmm' f ⟨hmarked, hreserved⟩
  obtain ⟨hmarked', hreserved'⟩ := hmarked.markFrameFree f
  exact ⟨hmarked', hreserved'.trans hreserved⟩

theorem Balanced.markRangeUsed {total : Nat} (htotal : total < 2 ^ 64)
    (h : Balanced storage total pmm) (base length : Nat) :
    Balanced storage total (markRangeUsed pmm base length) :=
  markRangeUsed_frames (Balanced storage total) (fun _ hbalanced => hbalanced.1.counted)
    (fun _ _ hbalanced hlt => hbalanced.reserveFrame htotal hlt) base length h

theorem Balanced.reserveOtherRegions {total : Nat} (htotal : total < 2 ^ 64)
    (h : Balanced storage total pmm) (regions : List BootMemRegion) :
    Balanced storage total (reserveOtherRegions pmm regions) :=
  reserveOtherRegions_frames (Balanced storage total) (fun _ hbalanced => hbalanced.1.counted)
    (fun _ _ hbalanced hlt => hbalanced.reserveFrame htotal hlt) regions h

theorem freeUsableRegions_perm (hperm : regions.Perm regions') (h : Marked storage pmm) :
    freeUsableRegions pmm regions' = freeUsableRegions pmm regions := by
  obtain ⟨hmarked, hreserved⟩ := h.freeUsableRegions regions
  obtain ⟨hmarked', hreserved'⟩ := h.freeUsableRegions regions'
  have hshape := (frees_freeUsableRegions pmm regions).shape
  have hshape' := (frees_freeUsableRegions pmm regions').shape
  have hmax := h.counted.maxPhys_eq
  have hlimit := h.counted.frameCount_lt
  apply hmarked.ext hmarked' (SameShape.between hshape hshape')
  · intro f hf
    rw [hshape.frameCount] at hf
    have hclear := freeUsableRegions_clear regions hmax (by omega) hf
    have hclear' := freeUsableRegions_clear regions' hmax (by omega) hf
    simp only [← hperm.mem_iff] at hclear'
    exact bitmapTest_eq_of_clear_iff hclear hclear'
  · rw [hreserved, hreserved']

theorem reserveOtherRegions_perm (hperm : regions.Perm regions') {total : Nat}
    (htotal : total < 2 ^ 64) (h : Balanced storage total pmm) :
    reserveOtherRegions pmm regions' = reserveOtherRegions pmm regions := by
  obtain ⟨hmarked, hsum⟩ := h.reserveOtherRegions htotal regions
  obtain ⟨hmarked', hsum'⟩ := h.reserveOtherRegions htotal regions'
  have hshape := (reserves_reserveOtherRegions pmm regions).shape
  have hshape' := (reserves_reserveOtherRegions pmm regions').shape
  have hmax := h.1.counted.maxPhys_eq
  have hshapes := SameShape.between hshape hshape'
  have hbits : ∀ f < (PmmModel.reserveOtherRegions pmm regions).frameCount,
      bitmapTest (PmmModel.reserveOtherRegions pmm regions').bitmap f =
        bitmapTest (PmmModel.reserveOtherRegions pmm regions).bitmap f := by
    intro f hf
    rw [hshape.frameCount] at hf
    have hclear := reserveOtherRegions_clear regions hmax hf
    have hclear' := reserveOtherRegions_clear regions' hmax hf
    simp only [← hperm.mem_iff] at hclear'
    exact bitmapTest_eq_of_clear_iff hclear hclear'
  have hfree : (PmmModel.reserveOtherRegions pmm regions').freeFrames =
      (PmmModel.reserveOtherRegions pmm regions).freeFrames := by
    rw [hmarked'.counted.free_eq, hmarked.counted.free_eq,
      SameShape.clearFrames_eq hshapes hbits]
  exact hmarked.ext hmarked' hshapes hbits (by omega)

end Loops

theorem marked_unmarkedState (storage : Bitmap) {maxPhysBytes : Nat}
    (hpages : maxPhysBytes % 4096 = 0) (hmax : maxPhysBytes < 2 ^ 64) :
    Marked storage (unmarkedState storage maxPhysBytes) := by
  refine ⟨counted_unmarkedState storage hpages hmax, ?_, rfl, rfl⟩
  intro k hk
  have hfill : ∀ count, count ≤ k → fillBitmap storage count k = storage k := by
    intro count
    induction count with
    | zero => exact fun _ => rfl
    | succ count ih =>
        intro hle
        rw [fillBitmap, Function.update_of_ne (by omega), ih (by omega)]
  exact hfill _ hk

/-- Maps that differ in the order of their regions only initialise the allocator alike. -/
theorem pmmInitFromMap_perm (pmm : PmmState) {regions regions' : List BootMemRegion}
    (hperm : regions.Perm regions') (storage : Option Bitmap) (storageBytes : Nat)
    {maxPhysBytes : Nat} (hmax : maxPhysBytes < 2 ^ 64) :
    pmmInitFromMap pmm (some regions') storage storageBytes maxPhysBytes =
      pmmInitFromMap pmm (some regions) storage storageBytes maxPhysBytes := by
  rcases storage with _ | storage
  · rfl
  have hempty : regions' = [] ↔ regions = [] := by
    rw [← List.length_eq_zero_iff, ← List.length_eq_zero_iff, hperm.length_eq]
  simp only [pmmInitFromMap, hempty]
  split
  · rfl
  split
  · rfl
  case isFalse hsize =>
    split
    · rfl
    rw [and_pageMask, not_or, not_not] at hsize
    obtain ⟨hmarked, hreserved⟩ :=
      (marked_unmarkedState storage hsize.2 hmax).freeUsableRegions regions
    have hsum := hmarked.counted.sum
    have hlimit := hmarked.counted.frameCount_lt
    have htotal : (freeUsableRegions (unmarkedState storage maxPhysBytes) regions).freeFrames <
        2 ^ 64 := by omega
    have hbalanced : Balanced storage _
        (freeUsableRegions (unmarkedState storage maxPhysBytes) regions) := ⟨hmarked, rfl⟩
    rw [hreserved] at hbalanced
    have hfirst := hbalanced.markRangeUsed htotal 0 pmmPageSize
    have hfreed := freeUsableRegions_perm hperm (marked_unmarkedState storage hsize.2 hmax)
    have hlast := reserveOtherRegions_perm hperm htotal hfirst
    unfold unmarkedState at hfreed hlast
    rw [hfreed, hlast]

theorem pmmInitFromMap_perm_reservedInside :
    reservedInside.reverse ≠ reservedInside ∧
      pmmInitFromMap pmmZeroState (some reservedInside.reverse) (some fun _ => 0) 1 16384 =
        pmmInitFromMap pmmZeroState (some reservedInside) (some fun _ => 0) 1 16384 :=
  ⟨by decide, pmmInitFromMap_perm pmmZeroState (List.reverse_perm reservedInside).symm _ 1
    (by decide)⟩

end Mcsos.PmmOrder
