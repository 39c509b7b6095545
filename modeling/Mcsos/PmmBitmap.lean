import Mathlib.Tactic.IntervalCases
import Mcsos.PmmModel
import Mcsos.WordArithmetic

namespace Mcsos.PmmBitmap

open Mcsos.PmmModel
open Mcsos.WordArithmetic

theorem and_pageMask (value : Nat) : value &&& (pmmPageSize - 1) = value % 4096 :=
  Nat.and_two_pow_sub_one_eq_mod value 12

theorem bitMask_toNat (index : Nat) : (bitMask index).toNat = 2 ^ (index % 8) := by
  have hmask : index &&& 7 = index % 8 := Nat.and_two_pow_sub_one_eq_mod index 3
  have hlt : index % 8 < 8 := Nat.mod_lt _ (by omega)
  rw [bitMask, hmask]
  interval_cases index % 8 <;> rfl

theorem bitmapTest_eq_testBit (bitmap : Bitmap) (index : Nat) :
    bitmapTest bitmap index = (bitmap (index >>> 3)).toNat.testBit (index % 8) := by
  have hbit : (bitmap (index >>> 3) &&& bitMask index).toNat =
      ((bitmap (index >>> 3)).toNat.testBit (index % 8)).toNat * 2 ^ (index % 8) := by
    rw [UInt8.toNat_and, bitMask_toNat, Nat.and_two_pow]
  have hzero : bitmap (index >>> 3) &&& bitMask index = 0 ↔
      (bitmap (index >>> 3)).toNat.testBit (index % 8) = false := by
    rw [← UInt8.toNat_inj, hbit]
    cases (bitmap (index >>> 3)).toNat.testBit (index % 8) <;> simp
  rw [bitmapTest]
  cases hcase : (bitmap (index >>> 3)).toNat.testBit (index % 8)
  · simp [hzero.mpr hcase]
  · simp only [bne_iff_ne, ne_eq, hzero, hcase]
    simp

theorem index_eq_of_parts {i j : Nat} (hbyte : i >>> 3 = j >>> 3) (hbit : i % 8 = j % 8) :
    i = j := by
  rw [Nat.shiftRight_eq_div_pow, Nat.shiftRight_eq_div_pow] at hbyte
  omega

theorem bitmapTest_bitmapSet (bitmap : Bitmap) (i j : Nat) :
    bitmapTest (bitmapSet bitmap i) j = (decide (i = j) || bitmapTest bitmap j) := by
  rw [bitmapTest_eq_testBit, bitmapTest_eq_testBit, bitmapSet]
  by_cases hbyte : j >>> 3 = i >>> 3
  · rw [hbyte, Function.update_self, UInt8.toNat_or, bitMask_toNat, Nat.testBit_or,
      Nat.testBit_two_pow, Bool.or_comm]
    congr 1
    rw [decide_eq_decide]
    exact ⟨fun hbit => index_eq_of_parts hbyte.symm hbit, fun h => by rw [h]⟩
  · have hne : i ≠ j := fun h => hbyte (by rw [h])
    rw [Function.update_of_ne hbyte]
    simp [hne]

theorem bitmapTest_bitmapClear (bitmap : Bitmap) (i j : Nat) :
    bitmapTest (bitmapClear bitmap i) j = (!decide (i = j) && bitmapTest bitmap j) := by
  rw [bitmapTest_eq_testBit, bitmapTest_eq_testBit, bitmapClear]
  by_cases hbyte : j >>> 3 = i >>> 3
  · rw [hbyte, Function.update_self, UInt8.toNat_and, Nat.testBit_and, Bool.and_comm]
    congr 1
    have hlt : 2 ^ (i % 8) < 2 ^ 8 := Nat.pow_lt_pow_right (by omega) (by omega)
    have hnot : (~~~bitMask i).toNat = 2 ^ 8 - (2 ^ (i % 8) + 1) := by
      rw [UInt8.toNat_not, bitMask_toNat, Nat.sub_sub, Nat.add_comm 1]
      rfl
    have hj : j % 8 < 8 := Nat.mod_lt _ (by omega)
    rw [hnot, Nat.testBit_two_pow_sub_succ hlt, Nat.testBit_two_pow]
    simp only [hj, decide_true, Bool.true_and]
    congr 1
    rw [decide_eq_decide]
    exact ⟨fun hbit => index_eq_of_parts hbyte.symm hbit, fun h => by rw [h]⟩
  · have hne : i ≠ j := fun h => hbyte (by rw [h])
    rw [Function.update_of_ne hbyte]
    simp [hne]

/-- The parts of the state that no marking changes. -/
structure SameShape (pmm pmm' : PmmState) : Prop where
  bitmapBytes : pmm'.bitmapBytes = pmm.bitmapBytes
  maxPhys : pmm'.maxPhys = pmm.maxPhys
  frameCount : pmm'.frameCount = pmm.frameCount
  initialized : pmm'.initialized = pmm.initialized

theorem SameShape.refl (pmm : PmmState) : SameShape pmm pmm := ⟨rfl, rfl, rfl, rfl⟩

theorem SameShape.trans {pmm pmm' pmm'' : PmmState} (h : SameShape pmm pmm')
    (h' : SameShape pmm' pmm'') : SameShape pmm pmm'' :=
  ⟨h'.bitmapBytes.trans h.bitmapBytes, h'.maxPhys.trans h.maxPhys,
    h'.frameCount.trans h.frameCount, h'.initialized.trans h.initialized⟩

section Frame

variable (pmm : PmmState) (frame : Nat)

theorem markFrameFree_shape : SameShape pmm (markFrameFree pmm frame) := by
  unfold markFrameFree
  split
  · exact .refl pmm
  · split <;> exact ⟨rfl, rfl, rfl, rfl⟩

theorem markFrameUsed_shape : SameShape pmm (markFrameUsed pmm frame) := by
  unfold markFrameUsed
  split
  · exact .refl pmm
  · split <;> exact ⟨rfl, rfl, rfl, rfl⟩

theorem reserveFrame_shape : SameShape pmm (reserveFrame pmm frame) := by
  unfold reserveFrame
  obtain ⟨hbytes, hmax, hcount, hinit⟩ := markFrameUsed_shape pmm frame
  dsimp only
  split <;> exact ⟨hbytes, hmax, hcount, hinit⟩

theorem markFrameFree_nextHint : (markFrameFree pmm frame).nextHint ≤ pmm.nextHint := by
  unfold markFrameFree
  split
  · exact le_refl _
  · split
    · dsimp only
      split <;> omega
    · exact le_refl _

theorem markFrameUsed_nextHint : (markFrameUsed pmm frame).nextHint = pmm.nextHint := by
  unfold markFrameUsed
  split
  · rfl
  · split <;> rfl

theorem reserveFrame_nextHint : (reserveFrame pmm frame).nextHint = pmm.nextHint := by
  unfold reserveFrame
  dsimp only
  split <;> exact markFrameUsed_nextHint pmm frame

theorem markFrameFree_test (g : Nat) :
    bitmapTest (markFrameFree pmm frame).bitmap g =
      (bitmapTest pmm.bitmap g && !(decide (frame = g) && decide (frame < pmm.frameCount))) := by
  unfold markFrameFree
  by_cases hout : pmm.frameCount ≤ frame
  · have hnot : ¬frame < pmm.frameCount := by omega
    simp [hout, hnot]
  · have hin : frame < pmm.frameCount := by omega
    by_cases hset : bitmapTest pmm.bitmap frame = true
    · simp only [if_neg hout, if_pos hset, bitmapTest_bitmapClear, hin, decide_true,
        Bool.and_true]
      rw [Bool.and_comm]
    · simp only [if_neg hout, if_neg hset, hin, decide_true, Bool.and_true]
      by_cases heq : frame = g
      · subst heq
        simp [hset]
      · simp [heq]

theorem markFrameUsed_test (g : Nat) :
    bitmapTest (markFrameUsed pmm frame).bitmap g =
      (bitmapTest pmm.bitmap g || (decide (frame = g) && decide (frame < pmm.frameCount))) := by
  unfold markFrameUsed
  by_cases hout : pmm.frameCount ≤ frame
  · have hnot : ¬frame < pmm.frameCount := by omega
    simp [hout, hnot]
  · have hin : frame < pmm.frameCount := by omega
    by_cases hset : bitmapTest pmm.bitmap frame = true
    · simp only [if_neg hout, if_pos hset, hin, decide_true, Bool.and_true]
      by_cases heq : frame = g
      · subst heq
        simp [hset]
      · simp [heq]
    · simp only [if_neg hout, if_neg hset, bitmapTest_bitmapSet, hin, decide_true,
        Bool.and_true]
      rw [Bool.or_comm]

theorem reserveFrame_test (g : Nat) :
    bitmapTest (reserveFrame pmm frame).bitmap g =
      (bitmapTest pmm.bitmap g || (decide (frame = g) && decide (frame < pmm.frameCount))) := by
  unfold reserveFrame
  dsimp only
  split <;> exact markFrameUsed_test pmm frame g

end Frame

theorem forPages_invariant {visit : PmmState → Nat → PmmState} (I : PmmState → Prop)
    (hvisit : ∀ pmm frame, I pmm → I (visit pmm frame)) {pmm : PmmState} (addr pages : Nat)
    (h : I pmm) : I (forPages visit pmm addr pages) := by
  induction pages generalizing pmm addr with
  | zero => exact h
  | succ pages ih => exact ih (addr + pmmPageSize) (hvisit pmm _ h)

theorem markRangeFree_invariant (I : PmmState → Prop)
    (hvisit : ∀ pmm frame, I pmm → I (markFrameFree pmm frame)) {pmm : PmmState}
    (base length : Nat) (h : I pmm) : I (markRangeFree pmm base length) := by
  unfold markRangeFree
  split
  · exact h
  · split
    · exact h
    · dsimp only
      split
      · exact h
      · exact forPages_invariant I hvisit _ _ h

theorem markRangeUsed_invariant (I : PmmState → Prop)
    (hvisit : ∀ pmm frame, I pmm → I (reserveFrame pmm frame)) {pmm : PmmState}
    (base length : Nat) (h : I pmm) : I (markRangeUsed pmm base length) := by
  unfold markRangeUsed
  split
  · exact h
  · split
    · exact h
    · dsimp only
      split
      · exact h
      · exact forPages_invariant I hvisit _ _ h

theorem freeUsableRegions_invariant (I : PmmState → Prop)
    (hvisit : ∀ pmm frame, I pmm → I (markFrameFree pmm frame)) {pmm : PmmState}
    (regions : List BootMemRegion) (h : I pmm) : I (freeUsableRegions pmm regions) := by
  refine List.foldlRecOn regions _ h ?_
  intro pmm' hI region _
  split
  · exact markRangeFree_invariant I hvisit _ _ hI
  · exact hI

theorem reserveOtherRegions_invariant (I : PmmState → Prop)
    (hvisit : ∀ pmm frame, I pmm → I (reserveFrame pmm frame)) {pmm : PmmState}
    (regions : List BootMemRegion) (h : I pmm) : I (reserveOtherRegions pmm regions) := by
  refine List.foldlRecOn regions _ h ?_
  intro pmm' hI region _
  split
  · exact markRangeUsed_invariant I hvisit _ _ hI
  · exact hI

theorem forPages_reserveFrame_test (pmm : PmmState) (addr pages g : Nat) :
    bitmapTest (forPages reserveFrame pmm addr pages).bitmap g =
      (bitmapTest pmm.bitmap g ||
        (decide (addr / 4096 ≤ g) && decide (g < addr / 4096 + pages) &&
          decide (g < pmm.frameCount))) := by
  induction pages generalizing pmm addr with
  | zero =>
      have hempty : ¬(addr / 4096 ≤ g ∧ g < addr / 4096 + 0) := by omega
      rw [forPages, ← Bool.decide_and, decide_eq_false hempty]
      simp
  | succ pages ih =>
      have hnext : (addr + 4096) / 4096 = addr / 4096 + 1 := by omega
      rw [forPages, ih, pmmPageSize, hnext, reserveFrame_test,
        (reserveFrame_shape pmm _).frameCount, Bool.or_assoc]
      congr 1
      rw [Bool.eq_iff_iff]
      simp only [Bool.or_eq_true, Bool.and_eq_true, decide_eq_true_eq]
      omega

/-- `pmm'` is `pmm` with more frames used. -/
structure Reserves (pmm pmm' : PmmState) : Prop where
  shape : SameShape pmm pmm'
  nextHint : pmm'.nextHint = pmm.nextHint
  keeps : ∀ g, bitmapTest pmm.bitmap g = true → bitmapTest pmm'.bitmap g = true

theorem Reserves.refl (pmm : PmmState) : Reserves pmm pmm :=
  ⟨.refl pmm, rfl, fun _ h => h⟩

theorem Reserves.trans {pmm pmm' pmm'' : PmmState} (h : Reserves pmm pmm')
    (h' : Reserves pmm' pmm'') : Reserves pmm pmm'' :=
  ⟨h.shape.trans h'.shape, h'.nextHint.trans h.nextHint, fun g hg => h'.keeps g (h.keeps g hg)⟩

theorem reserves_reserveFrame (pmm : PmmState) (frame : Nat) :
    Reserves pmm (reserveFrame pmm frame) :=
  ⟨reserveFrame_shape pmm frame, reserveFrame_nextHint pmm frame, fun g hg => by
    rw [reserveFrame_test, hg, Bool.true_or]⟩

theorem Reserves.reserveFrame {pmm pmm' : PmmState} (h : Reserves pmm pmm') (frame : Nat) :
    Reserves pmm (reserveFrame pmm' frame) :=
  h.trans (reserves_reserveFrame pmm' frame)

theorem reserves_markRangeUsed (pmm : PmmState) (base length : Nat) :
    Reserves pmm (markRangeUsed pmm base length) :=
  markRangeUsed_invariant (Reserves pmm) (fun _ frame h => h.reserveFrame frame) _ _ (.refl pmm)

theorem reserves_reserveOtherRegions (pmm : PmmState) (regions : List BootMemRegion) :
    Reserves pmm (reserveOtherRegions pmm regions) :=
  reserveOtherRegions_invariant (Reserves pmm) (fun _ frame h => h.reserveFrame frame) _
    (.refl pmm)

/-- `pmm'` is `pmm` with other frames free, and the hint not raised. -/
structure Frees (pmm pmm' : PmmState) : Prop where
  shape : SameShape pmm pmm'
  nextHint : pmm'.nextHint ≤ pmm.nextHint

theorem Frees.refl (pmm : PmmState) : Frees pmm pmm := ⟨.refl pmm, le_refl _⟩

theorem Frees.markFrameFree {pmm pmm' : PmmState} (h : Frees pmm pmm') (frame : Nat) :
    Frees pmm (markFrameFree pmm' frame) :=
  ⟨h.shape.trans (markFrameFree_shape pmm' frame),
    (markFrameFree_nextHint pmm' frame).trans h.nextHint⟩

theorem frees_markRangeFree (pmm : PmmState) (base length : Nat) :
    Frees pmm (markRangeFree pmm base length) :=
  markRangeFree_invariant (Frees pmm) (fun _ frame h => h.markFrameFree frame) _ _ (.refl pmm)

theorem frees_freeUsableRegions (pmm : PmmState) (regions : List BootMemRegion) :
    Frees pmm (freeUsableRegions pmm regions) :=
  freeUsableRegions_invariant (Frees pmm) (fun _ frame h => h.markFrameFree frame) _ (.refl pmm)

end Mcsos.PmmBitmap
