import Mathlib.Data.Finset.Card
import Mcsos.PmmReserved

/-!
The counters of the frame allocator.  They are kept up to date one frame at a time, behind
guards that would hide a drift; along every run they equal the numbers of clear and of set
bits, and no bit outside the bitmap is ever looked at.
-/

namespace Mcsos.PmmCounters

open Mcsos.CallSystem
open Mcsos.PmmModel
open Mcsos.PmmBitmap
open Mcsos.PmmOwnership
open Mcsos.PmmReserved

/-- The frames whose bit is set. -/
def setFrames (pmm : PmmState) : Finset Nat :=
  (Finset.range pmm.frameCount).filter fun f => bitmapTest pmm.bitmap f = true

/-- The frames whose bit is clear. -/
def clearFrames (pmm : PmmState) : Finset Nat :=
  (Finset.range pmm.frameCount).filter fun f => bitmapTest pmm.bitmap f = false

/-- The counters are the numbers of clear and of set bits, the bits behind the last frame
are set, and the hint is a frame or the end of them. -/
structure Counted (pmm : PmmState) : Prop where
  frameCount_lt : pmm.frameCount < 2 ^ 52
  bitmapBytes_eq : pmm.bitmapBytes = (pmm.frameCount + 7) / 8
  maxPhys_eq : pmm.maxPhys = 4096 * pmm.frameCount
  free_eq : pmm.freeFrames = (clearFrames pmm).card
  used_eq : pmm.usedFrames = (setFrames pmm).card
  padding : ∀ f, pmm.frameCount ≤ f → f < 8 * pmm.bitmapBytes → bitmapTest pmm.bitmap f = true
  hint_le : pmm.nextHint ≤ pmm.frameCount

section Count

variable {pmm : PmmState} {f : Nat}

theorem mem_setFrames :
    f ∈ setFrames pmm ↔ f < pmm.frameCount ∧ bitmapTest pmm.bitmap f = true := by
  rw [setFrames, Finset.mem_filter, Finset.mem_range]

theorem mem_clearFrames :
    f ∈ clearFrames pmm ↔ f < pmm.frameCount ∧ bitmapTest pmm.bitmap f = false := by
  rw [clearFrames, Finset.mem_filter, Finset.mem_range]

theorem card_clear_add_card_set (pmm : PmmState) :
    (clearFrames pmm).card + (setFrames pmm).card = pmm.frameCount := by
  have hsplit := Finset.card_filter_add_card_filter_not (s := Finset.range pmm.frameCount)
    (fun f => bitmapTest pmm.bitmap f = false)
  rw [Finset.card_range] at hsplit
  simpa [clearFrames, setFrames] using hsplit

theorem clearFrames_markFrameFree (hlt : f < pmm.frameCount) :
    clearFrames (markFrameFree pmm f) = insert f (clearFrames pmm) := by
  ext g
  rw [Finset.mem_insert, mem_clearFrames, mem_clearFrames, (markFrameFree_shape pmm f).frameCount,
    markFrameFree_test_of_lt hlt, Bool.and_eq_false_iff, Bool.not_eq_false', decide_eq_true_eq]
  constructor
  · rintro ⟨hg, hclear | rfl⟩
    · exact .inr ⟨hg, hclear⟩
    · exact .inl rfl
  · rintro (rfl | ⟨hg, hclear⟩)
    · exact ⟨hlt, .inr rfl⟩
    · exact ⟨hg, .inl hclear⟩

theorem setFrames_markFrameFree (hlt : f < pmm.frameCount) :
    setFrames (markFrameFree pmm f) = (setFrames pmm).erase f := by
  ext g
  rw [Finset.mem_erase, mem_setFrames, mem_setFrames, (markFrameFree_shape pmm f).frameCount,
    markFrameFree_test_of_lt hlt, Bool.and_eq_true, Bool.not_eq_true', decide_eq_false_iff_not]
  constructor
  · rintro ⟨hg, hset, hne⟩
    exact ⟨fun heq => hne heq.symm, hg, hset⟩
  · rintro ⟨hne, hg, hset⟩
    exact ⟨hg, hset, fun heq => hne heq.symm⟩

theorem clearFrames_markFrameUsed (hlt : f < pmm.frameCount) :
    clearFrames (markFrameUsed pmm f) = (clearFrames pmm).erase f := by
  ext g
  rw [Finset.mem_erase, mem_clearFrames, mem_clearFrames, (markFrameUsed_shape pmm f).frameCount,
    markFrameUsed_test, decide_eq_true hlt, Bool.and_true, Bool.or_eq_false_iff,
    decide_eq_false_iff_not]
  constructor
  · rintro ⟨hg, hclear, hne⟩
    exact ⟨fun heq => hne heq.symm, hg, hclear⟩
  · rintro ⟨hne, hg, hclear⟩
    exact ⟨hg, hclear, fun heq => hne heq.symm⟩

theorem setFrames_markFrameUsed (hlt : f < pmm.frameCount) :
    setFrames (markFrameUsed pmm f) = insert f (setFrames pmm) := by
  ext g
  rw [Finset.mem_insert, mem_setFrames, mem_setFrames, (markFrameUsed_shape pmm f).frameCount,
    markFrameUsed_test, decide_eq_true hlt, Bool.and_true, Bool.or_eq_true, decide_eq_true_eq]
  constructor
  · rintro ⟨hg, hset | rfl⟩
    · exact .inr ⟨hg, hset⟩
    · exact .inl rfl
  · rintro (rfl | ⟨hg, hset⟩)
    · exact ⟨hlt, .inr rfl⟩
    · exact ⟨hg, .inl hset⟩

theorem counters_markFrameFree (hlt : f < pmm.frameCount) (hset : bitmapTest pmm.bitmap f = true) :
    (clearFrames (markFrameFree pmm f)).card = (clearFrames pmm).card + 1 ∧
      (setFrames (markFrameFree pmm f)).card + 1 = (setFrames pmm).card := by
  rw [clearFrames_markFrameFree hlt, setFrames_markFrameFree hlt]
  constructor
  · apply Finset.card_insert_of_notMem
    rw [mem_clearFrames, hset]
    simp
  · exact Finset.card_erase_add_one (mem_setFrames.mpr ⟨hlt, hset⟩)

theorem counters_markFrameUsed (hlt : f < pmm.frameCount)
    (hclear : bitmapTest pmm.bitmap f = false) :
    (clearFrames (markFrameUsed pmm f)).card + 1 = (clearFrames pmm).card ∧
      (setFrames (markFrameUsed pmm f)).card = (setFrames pmm).card + 1 := by
  rw [clearFrames_markFrameUsed hlt, setFrames_markFrameUsed hlt]
  constructor
  · exact Finset.card_erase_add_one (mem_clearFrames.mpr ⟨hlt, hclear⟩)
  · apply Finset.card_insert_of_notMem
    rw [mem_setFrames, hclear]
    simp

end Count

section Operations

variable {pmm : PmmState}

theorem markFrameFree_of_set {f : Nat} (hlt : f < pmm.frameCount)
    (hset : bitmapTest pmm.bitmap f = true) :
    (markFrameFree pmm f).freeFrames = (pmm.freeFrames + 1) % 2 ^ 64 ∧
      (markFrameFree pmm f).usedFrames = pmm.usedFrames - 1 := by
  have hinside : ¬pmm.frameCount ≤ f := by omega
  rw [markFrameFree, if_neg hinside, if_pos hset]
  refine ⟨rfl, ?_⟩
  dsimp only
  split <;> omega

theorem markFrameFree_of_clear {f : Nat} (hclear : bitmapTest pmm.bitmap f = false) :
    markFrameFree pmm f = pmm := by
  rw [markFrameFree, hclear, if_neg Bool.false_ne_true, ite_self]

theorem markFrameUsed_of_clear {f : Nat} (hlt : f < pmm.frameCount)
    (hclear : bitmapTest pmm.bitmap f = false) :
    (markFrameUsed pmm f).freeFrames = pmm.freeFrames - 1 ∧
      (markFrameUsed pmm f).usedFrames = (pmm.usedFrames + 1) % 2 ^ 64 := by
  have hinside : ¬pmm.frameCount ≤ f := by omega
  rw [markFrameUsed, if_neg hinside, hclear, if_neg Bool.false_ne_true]
  refine ⟨?_, rfl⟩
  dsimp only
  split <;> omega

theorem markFrameUsed_of_set {f : Nat} (hset : bitmapTest pmm.bitmap f = true) :
    markFrameUsed pmm f = pmm := by
  rw [markFrameUsed, hset, if_pos rfl, ite_self]

theorem Counted.of_counters {pmm' : PmmState} (h : Counted pmm) (hshape : SameShape pmm pmm')
    (hfree : pmm'.freeFrames = (clearFrames pmm').card)
    (hused : pmm'.usedFrames = (setFrames pmm').card)
    (hpadding : ∀ f, pmm.frameCount ≤ f → bitmapTest pmm.bitmap f = true →
      bitmapTest pmm'.bitmap f = true)
    (hhint : pmm'.nextHint ≤ pmm'.frameCount) : Counted pmm' := by
  obtain ⟨hbytes, hmax, hcount, -⟩ := hshape
  refine ⟨by rw [hcount]; exact h.frameCount_lt, by rw [hbytes, hcount, h.bitmapBytes_eq],
    by rw [hmax, hcount, h.maxPhys_eq], hfree, hused, fun f hf hlt => ?_, hhint⟩
  rw [hcount] at hf
  rw [hbytes] at hlt
  exact hpadding f hf (h.padding f hf hlt)

theorem Counted.sum (h : Counted pmm) : pmm.freeFrames + pmm.usedFrames = pmm.frameCount := by
  rw [h.free_eq, h.used_eq]
  exact card_clear_add_card_set pmm

theorem Counted.markFrameFree (h : Counted pmm) (f : Nat) :
    Counted (markFrameFree pmm f) := by
  rcases Nat.lt_or_ge f pmm.frameCount with hlt | hout
  · cases hbit : bitmapTest pmm.bitmap f with
    | false =>
        rw [markFrameFree_of_clear hbit]
        exact h
    | true =>
        have hshape := markFrameFree_shape pmm f
        obtain ⟨hfree, hused⟩ := markFrameFree_of_set hlt hbit
        obtain ⟨hclearCard, hsetCard⟩ := counters_markFrameFree hlt hbit
        have hsum := h.sum
        have hlimit := h.frameCount_lt
        have hfreeOld := h.free_eq
        have husedOld := h.used_eq
        apply h.of_counters hshape
        · rw [hfree, hclearCard]
          omega
        · rw [hused]
          omega
        · intro g hg hset
          have hne : f ≠ g := by omega
          rw [markFrameFree_test_of_lt hlt, hset, decide_eq_false hne]
          rfl
        · rw [hshape.frameCount]
          exact (markFrameFree_nextHint pmm f).trans h.hint_le
  · rw [PmmModel.markFrameFree, if_pos hout]
    exact h

theorem Counted.markFrameUsed (h : Counted pmm) (f : Nat) :
    Counted (markFrameUsed pmm f) := by
  rcases Nat.lt_or_ge f pmm.frameCount with hlt | hout
  · cases hbit : bitmapTest pmm.bitmap f with
    | true =>
        rw [markFrameUsed_of_set hbit]
        exact h
    | false =>
        have hshape := markFrameUsed_shape pmm f
        obtain ⟨hfree, hused⟩ := markFrameUsed_of_clear hlt hbit
        obtain ⟨hclearCard, hsetCard⟩ := counters_markFrameUsed hlt hbit
        have hsum := h.sum
        have hlimit := h.frameCount_lt
        have hfreeOld := h.free_eq
        have husedOld := h.used_eq
        apply h.of_counters hshape
        · rw [hfree]
          omega
        · rw [hused, hsetCard]
          omega
        · intro g _ hset
          rw [markFrameUsed_test, hset, Bool.true_or]
        · rw [hshape.frameCount, markFrameUsed_nextHint]
          exact h.hint_le
  · rw [PmmModel.markFrameUsed, if_pos hout]
    exact h

theorem Counted.update (h : Counted pmm) {hint : Nat} (hhint : hint ≤ pmm.frameCount)
    (reserved : Nat) (ready : Bool) :
    Counted { pmm with nextHint := hint, reservedFrames := reserved, initialized := ready } :=
  ⟨h.frameCount_lt, h.bitmapBytes_eq, h.maxPhys_eq, h.free_eq, h.used_eq, h.padding, hhint⟩

theorem Counted.reserveFrame (h : Counted pmm) (f : Nat) : Counted (reserveFrame pmm f) := by
  have hmarked := h.markFrameUsed f
  unfold PmmModel.reserveFrame
  dsimp only
  split
  · exact hmarked.update hmarked.hint_le _ _
  · exact hmarked

theorem Counted.markRangeFree (h : Counted pmm) (base length : Nat) :
    Counted (markRangeFree pmm base length) :=
  markRangeFree_invariant Counted (fun _ frame hc => hc.markFrameFree frame) _ _ h

theorem Counted.markRangeUsed (h : Counted pmm) (base length : Nat) :
    Counted (markRangeUsed pmm base length) :=
  markRangeUsed_invariant Counted (fun _ frame hc => hc.reserveFrame frame) _ _ h

theorem Counted.freeUsableRegions (h : Counted pmm) (regions : List BootMemRegion) :
    Counted (freeUsableRegions pmm regions) :=
  freeUsableRegions_invariant Counted (fun _ frame hc => hc.markFrameFree frame) _ h

theorem Counted.reserveOtherRegions (h : Counted pmm) (regions : List BootMemRegion) :
    Counted (reserveOtherRegions pmm regions) :=
  reserveOtherRegions_invariant Counted (fun _ frame hc => hc.reserveFrame frame) _ h

theorem Counted.takeFrame (h : Counted pmm) {f : Nat} (hlt : f < pmm.frameCount) :
    Counted (takeFrame pmm f).1 := by
  have hlimit := h.frameCount_lt
  refine (h.markFrameUsed f).update ?_ _ _
  rw [(markFrameUsed_shape pmm f).frameCount, Nat.mod_eq_of_lt (by omega)]
  exact hlt

theorem Counted.pmmAllocFrame (h : Counted pmm) : Counted (pmmAllocFrame pmm).1 := by
  rcases pmmAllocFrame_cases pmm h.hint_le with hnone | ⟨f, hlt, -, htake⟩
  · rw [hnone]
    exact h
  · rw [htake]
    exact h.takeFrame hlt

theorem Counted.pmmFreeFrame (h : Counted pmm) (physAddr : Nat) :
    Counted (pmmFreeFrame pmm physAddr).1 := by
  unfold PmmModel.pmmFreeFrame
  split
  · exact h
  · split
    · exact h
    · split
      · exact h
      · exact h.markFrameFree _

theorem Counted.pmmReserveRange (h : Counted pmm) (base length : Nat) :
    Counted (pmmReserveRange pmm base length).1 := by
  unfold PmmModel.pmmReserveRange
  split
  · exact h
  · exact h.markRangeUsed base length

theorem Counted.step {r : PmmRun} (h : Counted r.pmm) (call : PmmCall) :
    Counted (r.step call).1.pmm := by
  cases call with
  | alloc => exact h.pmmAllocFrame
  | free physAddr => exact h.pmmFreeFrame physAddr
  | reserve base length => exact h.pmmReserveRange base length

theorem counted_unmarkedState (storage : Bitmap) {maxPhysBytes : Nat}
    (hpages : maxPhysBytes % 4096 = 0) (hmax : maxPhysBytes < 2 ^ 64) :
    Counted (unmarkedState storage maxPhysBytes) := by
  have hset : ∀ f < 8 * (unmarkedState storage maxPhysBytes).bitmapBytes,
      bitmapTest (unmarkedState storage maxPhysBytes).bitmap f = true := by
    intro f hf
    apply bitmapTest_fillBitmap
    change f < 8 * ((maxPhysBytes / pmmPageSize + 7) % 2 ^ 64 / 8) at hf
    omega
  have hbytes : (unmarkedState storage maxPhysBytes).bitmapBytes =
      ((unmarkedState storage maxPhysBytes).frameCount + 7) / 8 := by
    change (maxPhysBytes / 4096 + 7) % 2 ^ 64 / 8 = (maxPhysBytes / 4096 + 7) / 8
    omega
  have hclear : clearFrames (unmarkedState storage maxPhysBytes) = ∅ := by
    rw [Finset.eq_empty_iff_forall_notMem]
    intro f hf
    obtain ⟨hlt, hbit⟩ := mem_clearFrames.mp hf
    rw [hset f (by omega)] at hbit
    cases hbit
  have hsum := card_clear_add_card_set (unmarkedState storage maxPhysBytes)
  rw [hclear, Finset.card_empty, Nat.zero_add] at hsum
  refine ⟨?_, hbytes, ?_, ?_, hsum.symm, fun f _ hf => hset f hf, Nat.zero_le _⟩
  · change maxPhysBytes / 4096 < 2 ^ 52
    omega
  · change maxPhysBytes = 4096 * (maxPhysBytes / 4096)
    omega
  · rw [hclear, Finset.card_empty]
    rfl

end Operations

/-- The arguments are 64-bit. -/
def Wide : PmmCall → Prop
  | .alloc => True
  | .free physAddr => physAddr < 2 ^ 64
  | .reserve base length => base < 2 ^ 64 ∧ length < 2 ^ 64

instance (call : PmmCall) : Decidable (Wide call) :=
  match call with
  | .alloc => .isTrue trivial
  | .free physAddr => inferInstanceAs (Decidable (physAddr < 2 ^ 64))
  | .reserve base length => inferInstanceAs (Decidable (base < 2 ^ 64 ∧ length < 2 ^ 64))

/-- The allocator with clients that are not held to anything. -/
def pmmCallSystem : System PmmRun PmmCall PmmResult where
  allowed _ call := Wide call
  step r call := some (r.step call)

/-- The states that such clients bring an initialised allocator to. -/
def Reachable (r : PmmRun) : Prop :=
  ∃ pmm regions storage storageBytes maxPhysBytes trace,
    (pmmInitFromMap pmm regions storage storageBytes maxPhysBytes).2 = true ∧
      maxPhysBytes < 2 ^ 64 ∧
      Run pmmCallSystem (startRun pmm regions storage storageBytes maxPhysBytes) trace r

/-- What a list of calls returns. -/
def results (r : PmmRun) : List PmmCall → List PmmResult
  | [] => []
  | call :: calls => (r.step call).2 :: results (r.step call).1 calls

/-- The state after a list of calls. -/
def after (r : PmmRun) : List PmmCall → PmmRun
  | [] => r
  | call :: calls => after (r.step call).1 calls

section Clients

variable {n : Nat} {r r' : PmmRun} {trace : List (PmmCall × PmmResult)}

theorem run_after (r : PmmRun) {calls : List PmmCall} (hwide : ∀ call ∈ calls, Wide call) :
    Run pmmCallSystem r (calls.zip (results r calls)) (after r calls) := by
  induction calls generalizing r with
  | nil => exact .nil r
  | cons call calls ih =>
      rw [List.forall_mem_cons] at hwide
      exact .cons hwide.1 rfl (ih (r.step call).1 hwide.2)

theorem pmmInv_call (h : PmmInv n r) (call : PmmCall) : PmmInv n (r.step call).1 := by
  cases call with
  | alloc => exact (step_alloc h).1
  | reserve base length => exact (step_reserve h base length).1
  | free physAddr =>
      by_cases hused : UsedPage r.pmm physAddr
      · obtain ⟨f, rfl⟩ : ∃ f, physAddr = f * pmmPageSize :=
          ⟨physAddr / 4096, by have := hused.2.1; rw [pmmPageSize]; omega⟩
        have hfree := pmmFreeFrame_used h hused
        obtain ⟨hne, -, hlt, -⟩ := hused
        rw [pmmPageSize, Nat.mul_div_cancel f (by decide)] at hlt
        rw [pmmPageSize, Nat.mul_div_cancel f (by decide)] at hfree
        simp only [PmmRun.step, pmmPageSize, hfree]
        exact h.releaseFrame (fun hzero => hne (by rw [hzero, Nat.zero_mul]))
          (hlt.trans_eq h.frameCount_eq)
      · simp only [PmmRun.step, pmmFreeFrame_refused h hused]
        refine ⟨h.initialized, h.frameCount_eq, h.maxPhys_eq, h.maxPhys_lt, h.hint, h.zero_used,
          fun p hp => ?_⟩
        exact h.out_used p (List.mem_of_mem_filter hp)

theorem pmmInv_callRun (h : PmmInv n r) (hrun : Run pmmCallSystem r trace r') : PmmInv n r' :=
  hrun.invariant_total (fun _ _ => rfl) (PmmInv n) (fun _ call hinv _ => pmmInv_call hinv call) h

theorem counted_callRun (h : Counted r.pmm) (hrun : Run pmmCallSystem r trace r') :
    Counted r'.pmm :=
  hrun.invariant_total (fun _ _ => rfl) (fun s => Counted s.pmm)
    (fun _ call hcounted _ => hcounted.step call) h

theorem counted_startRun {pmm : PmmState} {regions : Option (List BootMemRegion)}
    {storage : Option Bitmap} {storageBytes maxPhysBytes : Nat}
    (hinit : (pmmInitFromMap pmm regions storage storageBytes maxPhysBytes).2 = true)
    (hmax : maxPhysBytes < 2 ^ 64) :
    Counted (startRun pmm regions storage storageBytes maxPhysBytes).pmm := by
  obtain ⟨map, bitmapStorage, -, -, -, hpages, hstate⟩ := pmmInitFromMap_true hinit
  have hmarked := (((counted_unmarkedState bitmapStorage hpages hmax).freeUsableRegions
    map).markRangeUsed 0 pmmPageSize).reserveOtherRegions map
  unfold startRun
  rw [hstate]
  exact hmarked.update hmarked.hint_le _ _

theorem Reachable.invariant (h : Reachable r) :
    PmmInv r.pmm.frameCount r ∧ Counted r.pmm := by
  obtain ⟨pmm, regions, storage, storageBytes, maxPhysBytes, trace, hinit, hmax, hrun⟩ := h
  have hinv := pmmInv_callRun (pmmInv_startRun hinit hmax) hrun
  rw [← hinv.frameCount_eq] at hinv
  exact ⟨hinv, counted_callRun (counted_startRun hinit hmax) hrun⟩

theorem reachable_after_twoFrames {calls : List PmmCall} (hwide : ∀ call ∈ calls, Wide call) :
    Reachable (after twoFrames calls) :=
  ⟨_, _, _, _, _, _, pmmInitFromMap_twoFrames, by decide, run_after twoFrames hwide⟩

end Clients

end Mcsos.PmmCounters
